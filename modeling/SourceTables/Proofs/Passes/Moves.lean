import Mathlib.Logic.Relation
import SourceTables.Passes
import SourceTables.Proofs.Flight.Runs
import SourceTables.Proofs.Workspace.Ensure

/-!
# `SourceTables.Proofs.Passes.Moves`: what an event can do to passes and workers

The theorems:

* `move_of_step`: every event makes one of a few moves, each written out with all that it changes. The
  invariants below and in the modules that follow are proved move by move.
* `consistent_of_reachable`: whatever has happened, runs and jobs belong together, the register names
  runs of its keys, and a conversion that has succeeded is one of the version that its worker took.
-/

set_option autoImplicit false

namespace SourceTables.Refreshing

/-! ### Moves -/

/-- What one event does. -/
inductive Move (s : Refreshing) : Refreshing → Prop
  | edit (files : Files) : Move s { s with files }
  | begin (hpass : s.pass = none) :
    Move s { s with
      table := s.table.beginPass.2, pass := some ⟨s.table.beginPass.1, .detecting⟩ }
  | detect (wasStale : Bool) (layout : Layout) (hpass : s.pass = some ⟨wasStale, .detecting⟩)
    (hlayout : s.table.origin.layout (s.workspace.detection s.table.maxDepth) s.files = .ok layout) :
    Move s { s with pass := some ⟨wasStale, .converting layout layout.files []⟩ }
  | ask (wasStale : Bool) (layout : Layout) (p : Path) (ahead : List Path)
    (requests : List Request)
    (hpass : s.pass = some ⟨wasStale, .converting layout (p :: ahead) requests⟩) :
    Move s { (s.askFor p).2 with
      pass := some ⟨wasStale,
        .converting layout ahead (requests ++ [{ path := p, run := (s.askFor p).1 }])⟩ }
  /-- A worker takes the version of its source. -/
  | take (run : Nat) (job : Job) (source : Fingerprint) (hjob : s.jobs[run]? = some job)
    (hsource : job.source = none) (houtcome : job.outcome = none)
    (htake : s.workspace.version s.files job.path = .ok source) :
    Move s { s with jobs := s.jobs.set run { job with source := some source } }
  /-- A worker finds no version of its source. -/
  | lose (run : Nat) (job : Job) (e : Error) (hjob : s.jobs[run]? = some job)
    (hsource : job.source = none) (houtcome : job.outcome = none)
    (hlose : s.workspace.version s.files job.path = .error e) :
    Move s { s with jobs := s.jobs.set run { job with outcome := some (.error e) } }
  /-- A worker converts the version that it has taken. -/
  | convert (run : Nat) (job : Job) (source : Fingerprint) (outcome : Except Error Record)
    (workspace : Workspace) (files : Files) (hjob : s.jobs[run]? = some job)
    (hsource : job.source = some source) (houtcome : job.outcome = none)
    (hconvert : s.workspace.ensureVersion s.files job.path source = (outcome, workspace, files)) :
    Move s { s with
      workspace, files, jobs := s.jobs.set run { job with outcome := some outcome } }
  | collect (wasStale : Bool) (layout : Layout) (ahead : List Path) (requests : List Request)
    (position : Nat) (request : Request) (outcome given : Except Error Record) (job : Job)
    (flight : Flight (List Component) Record)
    (hpass : s.pass = some ⟨wasStale, .converting layout ahead requests⟩)
    (hrequest : requests[position]? = some request) (hopen : request.outcome = none)
    (hjob : s.jobs[request.run]? = some job) (houtcome : job.outcome = some outcome)
    (hgiven : (s.flight.settle request.run outcome).finish request.run = some (given, flight)) :
    Move s { s with
      flight
      pass := some ⟨wasStale, .converting layout ahead
        (requests.set position { request with outcome := some given })⟩ }
  /-- The pass ends: nobody waits for its runs any more. -/
  | conclude (flight : Flight (List Component) Record) (files : Files) (pass : Pass)
    (built : Except Error Snapshot) (hpass : s.pass = some pass)
    (hstates : flight.states = s.flight.states)
    (hcurrent : ∀ key, flight.current? key = s.flight.current? key) :
    Move s ({ s with flight, files }.conclude pass.wasStale built)

/-- A pass that leaves runs behind changes neither their states nor the register. -/
theorem leaveAll_spec (flight : Flight (List Component) Record) (stage : Stage) :
    (leaveAll flight stage).states = flight.states ∧
      ∀ key, (leaveAll flight stage).current? key = flight.current? key := by
  have fold (left : List Request) (flight : Flight (List Component) Record) :
      (left.foldl (fun flight request => flight.leave request.run) flight).states = flight.states ∧
        ∀ key, (left.foldl (fun flight request => flight.leave request.run) flight).current? key
          = flight.current? key := by
    induction left generalizing flight with
    | nil => exact ⟨rfl, fun _ => rfl⟩
    | cons request rest ih =>
      obtain ⟨hstates, hcurrent⟩ := ih (flight.leave request.run)
      rw [List.foldl_cons]
      exact ⟨hstates.trans (Flight.states_leave _ _), hcurrent⟩
  cases stage with
  | detecting => exact ⟨rfl, fun _ => rfl⟩
  | converting layout ahead requests => exact fold _ flight

/-- Every event makes a move. -/
theorem move_of_step {s s' : Refreshing} {event : Event} (h : s.step event = some s') :
    Move s s' := by
  cases event with
  | edit files =>
    cases h
    exact .edit files
  | begin =>
    simp only [step] at h
    split at h
    · cases h
    · next hpass =>
      cases h
      exact .begin hpass
  | detect =>
    simp only [step] at h
    split at h
    · next wasStale hpass =>
      split at h
      · next layout hlayout =>
        cases h
        exact .detect wasStale layout hpass hlayout
      · next e hlayout =>
        cases h
        exact .conclude s.flight s.files ⟨wasStale, .detecting⟩ _ hpass rfl fun _ => rfl
    · cases h
  | ask =>
    simp only [step] at h
    split at h
    · next wasStale layout p ahead requests hpass =>
      split at h
      · cases h
        exact .ask wasStale layout p ahead requests hpass
      · cases h
    · cases h
  | work run =>
    obtain ⟨job, hjob, h⟩ := Option.bind_eq_some_iff.mp h
    unfold work at h
    split at h
    · cases h
    · next houtcome hsource =>
      cases htake : s.workspace.version s.files job.path with
      | ok source =>
        rw [htake] at h
        cases h
        exact .take run job source hjob hsource houtcome htake
      | error e =>
        rw [htake] at h
        cases h
        exact .lose run job e hjob hsource houtcome htake
    · next source houtcome hsource =>
      cases h
      exact .convert run job source _ _ _ hjob hsource houtcome rfl
  | collect position =>
    simp only [step] at h
    split at h
    · next wasStale layout ahead requests hpass =>
      obtain ⟨request, hrequest, h⟩ := Option.bind_eq_some_iff.mp h
      obtain ⟨⟨given, flight⟩, hgiven, h⟩ := Option.bind_eq_some_iff.mp h
      cases h
      unfold outcome? at hgiven
      split at hgiven
      · next outcome hopen hjob =>
        obtain ⟨job, hjob, houtcome⟩ := Option.bind_eq_some_iff.mp hjob
        exact .collect wasStale layout ahead requests position request outcome given job flight
          hpass hrequest hopen hjob houtcome hgiven
      · cases hgiven
    · cases h
  | callOff =>
    simp only [step] at h
    split at h
    · next pass hpass =>
      cases h
      obtain ⟨hstates, hcurrent⟩ := leaveAll_spec s.flight pass.stage
      exact .conclude _ s.files pass _ hpass hstates hcurrent
    · cases h
  | complete =>
    simp only [step] at h
    split at h
    · next wasStale layout requests hpass =>
      obtain ⟨results, -, h⟩ := Option.bind_eq_some_iff.mp h
      cases h
      exact .conclude s.flight s.files.tick ⟨wasStale, .converting layout [] requests⟩ _ hpass rfl
        fun _ => rfl
    · cases h

/-! ### Runs and their jobs -/

/-- Whether runs and jobs belong together. -/
structure Consistent (s : Refreshing) : Prop where
  /-- Each run has a job. -/
  length_eq : s.flight.states.length = s.jobs.length
  /-- The job of a run converts a source of the run's key, and a known outcome is that of the job. -/
  state : ∀ (run : Nat) (key : List Component) (outcome : Option (Except Error Record)) (job : Job),
    s.flight.states[run]? = some (key, outcome) → s.jobs[run]? = some job →
    job.path.components = key ∧ ∀ o, outcome = some o → job.outcome = some o
  /-- The register names runs of its keys. -/
  registered : ∀ (key : List Component) (run : Nat), s.flight.current? key = some run →
    ∃ outcome, s.flight.states[run]? = some (key, outcome)
  /-- A conversion that has succeeded is one of the version that the worker took. -/
  record : ∀ (run : Nat) (job : Job) (r : Record), s.jobs[run]? = some job →
    job.outcome = some (.ok r) → ∃ source, job.source = some source ∧ r.source.same source = true

/-- Before anything happens there are no runs. -/
theorem consistent_initial (table : LiveTable) (workspace : Workspace) (files : Files) :
    Consistent { table, workspace, files } where
  length_eq := rfl
  state := by
    intro run key outcome job h
    cases h
  registered := by
    intro key run h
    cases h
  record := by
    intro run job r h
    cases h

/-- What is known of runs and jobs depends on the states, the register and the jobs alone. -/
theorem Consistent.of_eq {s s' : Refreshing} (h : s.Consistent)
    (hstates : s'.flight.states = s.flight.states)
    (hcurrent : ∀ key, s'.flight.current? key = s.flight.current? key) (hjobs : s'.jobs = s.jobs) :
    s'.Consistent where
  length_eq := by rw [hstates, hjobs, h.length_eq]
  state := by rw [hstates, hjobs]; exact h.state
  registered := by
    intro key run
    rw [hcurrent, hstates]
    exact h.registered key run
  record := by rw [hjobs]; exact h.record

/-- A job that goes on stays the job of its run. -/
theorem Consistent.set_job {s s' : Refreshing} (h : s.Consistent) {run : Nat} {job job' : Job}
    (hjob : s.jobs[run]? = some job) (houtcome : job.outcome = none)
    (hflight : s'.flight = s.flight) (hjobs : s'.jobs = s.jobs.set run job')
    (hpath : job'.path = job.path)
    (hrecord : ∀ r, job'.outcome = some (.ok r) →
      ∃ source, job'.source = some source ∧ r.source.same source = true) :
    s'.Consistent where
  length_eq := by rw [hflight, hjobs, List.length_set, h.length_eq]
  state := by
    intro i key outcome job₁ hstate hjob₁
    rw [hflight] at hstate
    rw [hjobs, List.getElem?_set] at hjob₁
    split at hjob₁
    · next hi =>
      subst hi
      split at hjob₁
      · cases hjob₁
        obtain ⟨hkey, hknown⟩ := h.state run key outcome job hstate hjob
        refine ⟨hpath ▸ hkey, fun o ho => ?_⟩
        -- A run with an outcome has a job with an outcome, and this one has none.
        rw [hknown o ho] at houtcome
        cases houtcome
      · cases hjob₁
    · exact h.state i key outcome job₁ hstate hjob₁
  registered := by
    rw [hflight]
    exact h.registered
  record := by
    intro i job₁ r hjob₁ hr
    rw [hjobs, List.getElem?_set] at hjob₁
    split at hjob₁
    · split at hjob₁
      · cases hjob₁
        exact hrecord r hr
      · cases hjob₁
    · exact h.record i job₁ r hjob₁ hr

/-- A file that is asked for has its run. -/
theorem Consistent.askFor {s : Refreshing} (h : s.Consistent) (p : Path) :
    (s.askFor p).2.Consistent := by
  unfold Refreshing.askFor
  obtain ⟨-, -, hstarted, hstates, hcurrent⟩ | ⟨-, -, hstarted, hstates, hcurrent⟩ :=
    s.flight.register_cases p.components false
  · exact h.of_eq hstates hcurrent (by simp [hstarted])
  · have hlast : (s.flight.states ++ [(p.components, none)])[s.flight.runs.length]?
        = some (p.components, none) := by
      rw [← Flight.length_states, List.getElem?_concat_length]
    refine ⟨?_, ?_, ?_, ?_⟩
    · simp [hstarted, hstates, ← h.length_eq]
    · intro run key outcome job hstate hjob
      simp only [hstarted, if_true, hstates] at hstate hjob
      rw [List.getElem?_append] at hstate hjob
      rw [← h.length_eq] at hjob
      split at hstate
      · next hlt =>
        rw [if_pos hlt] at hjob
        exact h.state run key outcome job hstate hjob
      · next hlt =>
        rw [if_neg hlt] at hjob
        generalize run - s.flight.states.length = i at hstate hjob
        cases i with
        | zero =>
          cases hstate
          cases hjob
          exact ⟨rfl, nofun⟩
        | succ i => cases hstate
    · intro key run hrun
      simp only [hstates, hcurrent] at hrun ⊢
      split at hrun
      · next hkey =>
        cases hrun
        exact ⟨none, hkey ▸ hlast⟩
      · obtain ⟨outcome, houtcome⟩ := h.registered key run hrun
        exact ⟨outcome, by rw [List.getElem?_append_left (List.getElem?_eq_some_iff.mp houtcome).1,
          houtcome]⟩
    · intro run job r hjob hr
      simp only [hstarted, if_true] at hjob
      rw [List.getElem?_append] at hjob
      split at hjob
      · exact h.record run job r hjob hr
      · generalize run - s.jobs.length = i at hjob
        cases i with
        | zero =>
          cases hjob
          cases hr
        | succ i => cases hjob

/-- A run whose job has ended may be looked at. -/
theorem Consistent.finish {s : Refreshing} (h : s.Consistent) (s' : Refreshing) {run : Nat}
    {job : Job} {outcome given : Except Error Record} (hjob : s.jobs[run]? = some job)
    (houtcome : job.outcome = some outcome) (hjobs : s'.jobs = s.jobs)
    (hgiven : (s.flight.settle run outcome).finish run = some (given, s'.flight)) :
    s'.Consistent ∧ ∀ r, given = .ok r → outcome = .ok r := by
  obtain ⟨key, first, hfirst, hstates, hcurrent, hok⟩ := Flight.finish_settle hgiven
  obtain ⟨hkey, hknown⟩ := h.state run key first job hfirst hjob
  -- An outcome that the run had before is its job's, so looking twice gives the same.
  have hsame : first.getD outcome = outcome := by
    cases first with
    | none => rfl
    | some o =>
      have ho := hknown o rfl
      rw [houtcome] at ho
      cases ho
      rfl
  rw [hsame] at hstates hok
  have hlt : run < s.flight.states.length := (List.getElem?_eq_some_iff.mp hfirst).1
  refine ⟨⟨?_, ?_, ?_, ?_⟩, fun r => (hok r).mp⟩
  · rw [hstates, hjobs, List.length_set, h.length_eq]
  · intro i k o job₁ hstate hjob₁
    rw [hstates, List.getElem?_set, if_pos hlt] at hstate
    rw [hjobs] at hjob₁
    split at hstate
    · next hi =>
      subst hi
      cases hstate
      rw [hjob] at hjob₁
      cases hjob₁
      refine ⟨hkey, fun o ho => ?_⟩
      cases ho
      exact houtcome
    · exact h.state i k o job₁ hstate hjob₁
  · intro k i hi
    rw [hcurrent] at hi
    split at hi
    · cases hi
    · obtain ⟨o, ho⟩ := h.registered k i hi
      rw [hstates, List.getElem?_set, if_pos hlt]
      split
      · next heq =>
        subst heq
        rw [hfirst] at ho
        cases ho
        exact ⟨some outcome, rfl⟩
      · exact ⟨o, ho⟩
  · rw [hjobs]
    exact h.record

/-- Every move keeps runs and jobs together. -/
theorem Consistent.move {s s' : Refreshing} (h : s.Consistent) (hmove : Move s s') :
    s'.Consistent := by
  cases hmove with
  | edit | begin | detect => exact h.of_eq rfl (fun _ => rfl) rfl
  | conclude flight files pass built hpass hstates hcurrent =>
    exact h.of_eq hstates hcurrent rfl
  | take run job source hjob hsource houtcome htake =>
    exact h.set_job hjob houtcome rfl rfl rfl fun r hr => by rw [houtcome] at hr; cases hr
  | lose run job e hjob hsource houtcome hlose =>
    exact h.set_job hjob houtcome rfl rfl rfl nofun
  | convert run job source outcome workspace files hjob hsource houtcome hconvert =>
    refine h.set_job hjob houtcome rfl rfl rfl fun r hr => ⟨source, hsource, ?_⟩
    cases hr
    exact (Workspace.ok_of_ensureVersion hconvert).1
  | ask wasStale layout p ahead requests hpass =>
    exact (h.askFor p).of_eq rfl (fun _ => rfl) rfl
  | collect wasStale layout ahead requests position request outcome given job flight hpass
      hrequest hopen hjob houtcome hgiven =>
    obtain ⟨hfinish, -⟩ := h.finish { s with flight } hjob houtcome rfl hgiven
    exact hfinish.of_eq rfl (fun _ => rfl) rfl

/-- What can happen to a table from the time that it was set up. -/
def Reachable (s : Refreshing) : Prop :=
  ∃ (table : LiveTable) (workspace : Workspace) (files : Files),
    Relation.ReflTransGen Step { table, workspace, files } s

/-- Events that happen one after another are steps. -/
theorem reflTransGen_of_steps {s s' : Refreshing} {events : List Event}
    (h : s.steps events = some s') : Relation.ReflTransGen Step s s' := by
  induction events generalizing s with
  | nil =>
    cases h
    exact .refl
  | cons event rest ih =>
    obtain ⟨next, hnext, hrest⟩ := Option.bind_eq_some_iff.mp h
    exact .head ⟨event, hnext⟩ (ih hrest)

/-- Of events that can all happen one after another, each happens after those before it. -/
theorem step_of_steps {s : Refreshing} {events : List Event} {n : Nat} {event : Event}
    (hevent : events[n]? = some event) (h : (s.steps (events.take (n + 1))).isSome) :
    ((s.steps (events.take n)).getD s).step event
      = some ((s.steps (events.take (n + 1))).getD s) := by
  obtain ⟨s', hs'⟩ := Option.isSome_iff_exists.mp h
  have hsplit : s.steps (events.take (n + 1)) = (s.steps (events.take n)).bind (·.step event) := by
    unfold steps
    rw [List.take_add_one, hevent, List.foldlM_append]
    simp
  rw [hs', Option.getD_some]
  rw [hsplit] at hs'
  obtain ⟨before, hbefore, hstep⟩ := Option.bind_eq_some_iff.mp hs'
  rw [hbefore, Option.getD_some, hstep]

/-- Whatever has happened, runs and jobs belong together. -/
theorem consistent_of_reachable {s : Refreshing} (h : s.Reachable) : s.Consistent := by
  obtain ⟨table, workspace, files, h⟩ := h
  induction h with
  | refl => exact consistent_initial table workspace files
  | tail _ hstep ih =>
    obtain ⟨event, hevent⟩ := hstep
    exact ih.move (move_of_step hevent)

end SourceTables.Refreshing

import SourceTables.Proofs.LiveTable.Assemble
import SourceTables.Proofs.Passes.Moves

/-!
# `SourceTables.Proofs.Passes.Sources`: what a refresh has seen of its sources

A refresh is meant to bring the snapshot up to date with the sources. It does so for a file unless an
earlier pass that was called off has left a run of that file behind whose worker had taken a version of
the source that is no longer there: the refresh is given that run, and with it the record of the old
version.

The invariant `During` holds from the beginning of a pass to its end, as long as no file of the layout
changes. It says what each worker may have taken, and from which run each request will be served: the
one that was left behind, or one that was started in this pass.

The theorem `refresh_shows_iff` is exact in both directions, for all runs of edits, passes, callings
off and workers.
-/

set_option autoImplicit false

namespace SourceTables.Refreshing

/-- The version that a file has now. -/
def versionOf (s : Refreshing) (p : Path) : Except FileError Fingerprint :=
  Fingerprint.compute s.files p s.workspace.hashContents

/-- Whether an unfinished run of a file is registered. -/
def IsLeft (s : Refreshing) (p : Path) (run : Nat) : Prop :=
  s.flight.current? p.components = some run ∧ s.flight.outcome? run = none

/-- Whether a run of a file is left behind whose worker has taken another version than the file has
now. -/
def LeftBehind (s : Refreshing) (p : Path) : Prop :=
  ∃ run job, s.IsLeft p run ∧ s.jobs[run]? = some job ∧
    ∀ f, s.versionOf p = .ok f → ∃ source, job.source = some source ∧ ¬ source.same f = true

/-- Whether the snapshot holds a record of the version that a file has in another state. -/
def Shows (s : Refreshing) (p : Path) (other : Refreshing) : Prop :=
  ∃ e f, s.table.current.conversions.get? p.components = some e ∧ other.versionOf p = .ok f ∧
    e.record.source.same f = true

/-- An event that leaves a pass in flight, and some files as they are. -/
def Undisturbed (paths : List Path) (s s' : Refreshing) : Prop :=
  Step s s' ∧ s.pass.isSome ∧ s'.pass.isSome ∧ ∀ p ∈ paths, s'.versionOf p = s.versionOf p

/-! ### What holds during a pass -/

section

variable {paths : List Path} {s₀ s s' : Refreshing}

/-- Whether the pass has not touched what it will find when it asks for a file. -/
def Untouched (s₀ s : Refreshing) (p : Path) : Prop :=
  s.flight.current? p.components = s₀.flight.current? p.components ∧
    ∀ run, s₀.flight.current? p.components = some run →
      s.flight.outcome? run = s₀.flight.outcome? run

/-- Whether a request is served by the run that was left behind for its file or else by one that was
started in this pass; and what it was given is what the worker has ended with. -/
def Served (s₀ s : Refreshing) (request : Request) : Prop :=
  ∃ job, s.jobs[request.run]? = some job ∧ job.path.components = request.path.components ∧
    (∀ r, request.outcome = some (.ok r) → job.outcome = some (.ok r)) ∧
    (s₀.IsLeft request.path request.run ∨
      (∀ run, ¬ s₀.IsLeft request.path run) ∧ s₀.jobs.length ≤ request.run ∧
        job.path = request.path)

/-- What holds during a pass that began in `s₀`, while the files at `paths` stay as they are. -/
structure During (paths : List Path) (s₀ s : Refreshing) : Prop where
  consistent : s.Consistent
  hashContents_eq : s.workspace.hashContents = s₀.workspace.hashContents
  versions : ∀ p ∈ paths, s.versionOf p = s₀.versionOf p
  /-- Jobs from before go on, with the versions that they have taken. -/
  kept : ∀ (run : Nat) (job₀ : Job), s₀.jobs[run]? = some job₀ →
    ∃ job, s.jobs[run]? = some job ∧ job.path = job₀.path ∧
      ∀ source, job₀.source = some source → job.source = some source
  /-- A version that was not taken before was taken while the files were as they are. -/
  taken : ∀ (run : Nat) (job : Job) (source : Fingerprint), s.jobs[run]? = some job →
    job.source = some source →
    (∃ job₀, s₀.jobs[run]? = some job₀ ∧ job₀.source = some source) ∨
      ∃ fs, Fingerprint.compute fs job.path s₀.workspace.hashContents = .ok source ∧
        ∀ p ∈ paths, Fingerprint.compute fs p s₀.workspace.hashContents = s₀.versionOf p
  /-- Before the layout is known nothing is asked for. -/
  detecting : ∀ (wasStale : Bool), s.pass = some ⟨wasStale, .detecting⟩ → ∀ p, Untouched s₀ s p
  /-- Then the files of the layout are asked for in order. -/
  converting : ∀ (wasStale : Bool) (layout : Layout) (ahead : List Path) (requests : List Request),
    s.pass = some ⟨wasStale, .converting layout ahead requests⟩ → layout.files = paths →
    requests.map Request.path ++ ahead = paths ∧ (∀ p ∈ ahead, Untouched s₀ s p) ∧
      ∀ request ∈ requests, Served s₀ s request

/-- There are at least as many jobs as before. -/
theorem During.length_le (h : During paths s₀ s) : s₀.jobs.length ≤ s.jobs.length := by
  by_contra hlt
  obtain ⟨job, hjob, -⟩ := h.kept s.jobs.length s₀.jobs[s.jobs.length] (List.getElem?_eq_getElem _)
  rw [List.getElem?_eq_none (Nat.le_refl _)] at hjob
  cases hjob

/-- Whether a job goes on as another one: it keeps its source, its version and its outcome. -/
def Follows (job job' : Job) : Prop :=
  job'.path = job.path ∧ (∀ source, job.source = some source → job'.source = some source) ∧
    ∀ outcome, job.outcome = some outcome → job'.outcome = some outcome

/-- Whether all jobs go on. -/
def AllFollow (s s' : Refreshing) : Prop :=
  ∀ (run : Nat) (job : Job), s.jobs[run]? = some job →
    ∃ job', s'.jobs[run]? = some job' ∧ Follows job job'

theorem AllFollow.of_eq (h : s'.jobs = s.jobs) : AllFollow s s' := by
  intro run job hjob
  exact ⟨job, h ▸ hjob, rfl, fun _ => id, fun _ => id⟩

/-- The job of one run goes on, and the others stay. -/
theorem AllFollow.of_set {run : Nat} {job job' : Job} (hjob : s.jobs[run]? = some job)
    (hjobs : s'.jobs = s.jobs.set run job') (hfollows : Follows job job') : AllFollow s s' := by
  intro i job₁ hjob₁
  rw [hjobs, List.getElem?_set]
  split
  · next hi =>
    subst hi
    rw [hjob] at hjob₁
    cases hjob₁
    exact ⟨job', by rw [if_pos (List.getElem?_eq_some_iff.mp hjob).1], hfollows⟩
  · exact ⟨job₁, hjob₁, rfl, fun _ => id, fun _ => id⟩

/-- What a request is served by stays where jobs go on. -/
theorem Served.mono {request : Request} (h : Served s₀ s request) (hjobs : AllFollow s s') :
    Served s₀ s' request := by
  obtain ⟨job, hjob, hcomponents, houtcome, hrun⟩ := h
  obtain ⟨job', hjob', hpath, -, hkeep⟩ := hjobs _ job hjob
  refine ⟨job', hjob', by rw [hpath, hcomponents], fun r hr => hkeep _ (houtcome r hr), ?_⟩
  rw [hpath]
  exact hrun

/-- A file that the pass has not touched stays so where the runs and the register do. -/
theorem Untouched.of_eq {p : Path} (h : Untouched s₀ s p)
    (hcurrent : ∀ key, s'.flight.current? key = s.flight.current? key)
    (hstates : s'.flight.states = s.flight.states) : Untouched s₀ s' p := by
  refine ⟨(hcurrent _).trans h.1, fun run hrun => ?_⟩
  rw [Flight.outcome?_eq, hstates, ← Flight.outcome?_eq]
  exact h.2 run hrun

/-- The part of the invariant that is about jobs, from one event to the next. -/
theorem During.next (h : During paths s₀ s) (hconsistent : s'.Consistent)
    (hhash : s'.workspace.hashContents = s.workspace.hashContents)
    (hversions : ∀ p ∈ paths, s'.versionOf p = s.versionOf p) (hjobs : AllFollow s s')
    (htaken : ∀ (run : Nat) (job' : Job) (source : Fingerprint), s'.jobs[run]? = some job' →
      job'.source = some source →
      (∃ job, s.jobs[run]? = some job ∧ job'.path = job.path ∧ job.source = some source) ∨
        s.workspace.version s.files job'.path = .ok source)
    (hdetecting : ∀ wasStale, s'.pass = some ⟨wasStale, .detecting⟩ → ∀ p, Untouched s₀ s' p)
    (hconverting : ∀ wasStale layout ahead requests,
      s'.pass = some ⟨wasStale, .converting layout ahead requests⟩ → layout.files = paths →
      requests.map Request.path ++ ahead = paths ∧ (∀ p ∈ ahead, Untouched s₀ s' p) ∧
        ∀ request ∈ requests, Served s₀ s' request) :
    During paths s₀ s' where
  consistent := hconsistent
  hashContents_eq := hhash.trans h.hashContents_eq
  versions := fun p hp => (hversions p hp).trans (h.versions p hp)
  kept := by
    intro run job₀ hjob₀
    obtain ⟨job, hjob, hpath, hsource⟩ := h.kept run job₀ hjob₀
    obtain ⟨job', hjob', hpath', hsource', -⟩ := hjobs run job hjob
    exact ⟨job', hjob', hpath'.trans hpath, fun source hs => hsource' source (hsource source hs)⟩
  taken := by
    intro run job' source hjob' hsource
    obtain ⟨job, hjob, hpath, hsource⟩ | hnow := htaken run job' source hjob' hsource
    · rw [hpath]
      exact h.taken run job source hjob hsource
    · -- The worker takes the version now, and now the files are as they were at the beginning.
      refine .inr ⟨s.files, ?_, fun p hp => ?_⟩
      · rw [← h.hashContents_eq]
        unfold Workspace.version at hnow
        cases hcompute : Fingerprint.compute s.files job'.path s.workspace.hashContents with
        | error e =>
          rw [hcompute] at hnow
          cases hnow
        | ok f =>
          rw [hcompute] at hnow
          cases hnow
          rfl
      · rw [← h.versions p hp, versionOf, h.hashContents_eq]
  detecting := hdetecting
  converting := hconverting

/-- An event that only lets one job go on. -/
theorem During.progress (h : During paths s₀ s) (hconsistent : s'.Consistent)
    (hhash : s'.workspace.hashContents = s.workspace.hashContents)
    (hversions : ∀ p ∈ paths, s'.versionOf p = s.versionOf p) (hflight : s'.flight = s.flight)
    (hpass : s'.pass = s.pass) {run : Nat} {job job' : Job} (hjob : s.jobs[run]? = some job)
    (hjobs : s'.jobs = s.jobs.set run job') (hfollows : Follows job job')
    (htaken : ∀ source, job'.source = some source → job.source = some source ∨
      s.workspace.version s.files job.path = .ok source) :
    During paths s₀ s' := by
  have hall := AllFollow.of_set hjob hjobs hfollows
  have hquiet (p : Path) (hp : Untouched s₀ s p) : Untouched s₀ s' p :=
    hp.of_eq (fun _ => by rw [hflight]) (by rw [hflight])
  refine h.next hconsistent hhash hversions hall ?_ ?_ ?_
  · intro i job₁ source hjob₁ hsource
    rw [hjobs, List.getElem?_set] at hjob₁
    split at hjob₁
    · next hi =>
      subst hi
      split at hjob₁
      · cases hjob₁
        rw [hfollows.1]
        exact (htaken source hsource).imp (fun hs => ⟨job, hjob, rfl, hs⟩) id
      · cases hjob₁
    · exact .inl ⟨job₁, hjob₁, rfl, hsource⟩
  · intro wasStale hdetecting p
    exact hquiet p (h.detecting wasStale (hpass ▸ hdetecting) p)
  · intro wasStale layout ahead requests hconverting hfiles
    obtain ⟨horder, hahead, hserved⟩ :=
      h.converting wasStale layout ahead requests (hpass ▸ hconverting) hfiles
    exact ⟨horder, fun p hp => hquiet p (hahead p hp), fun r hr => (hserved r hr).mono hall⟩

/-- Of a file that the pass has not touched the same run is left. -/
theorem Untouched.isLeft_iff {p : Path} (h : Untouched s₀ s p) (run : Nat) :
    s.IsLeft p run ↔ s₀.IsLeft p run := by
  unfold IsLeft
  rw [h.1]
  constructor
  · rintro ⟨hrun, hnone⟩
    exact ⟨hrun, by rw [← h.2 run hrun, hnone]⟩
  · rintro ⟨hrun, hnone⟩
    exact ⟨hrun, by rw [h.2 run hrun, hnone]⟩

/-- Asking for a file lets the jobs go on; a job that is new has taken nothing. -/
theorem follow_askFor (s : Refreshing) (p : Path) : AllFollow s (s.askFor p).2 ∧
    ∀ (run : Nat) (job : Job), (s.askFor p).2.jobs[run]? = some job →
      s.jobs[run]? = some job ∨ job.source = none := by
  have hjobs : (s.askFor p).2.jobs = s.jobs ∨ (s.askFor p).2.jobs = s.jobs ++ [{ path := p }] := by
    unfold Refreshing.askFor
    cases hstarted : (s.flight.register p.components false).started with
    | false => exact .inl (by simp [hstarted])
    | true => exact .inr (by simp [hstarted])
  obtain hsame | hone := hjobs
  · exact ⟨.of_eq hsame, fun run job hjob => .inl (hsame ▸ hjob)⟩
  · refine ⟨fun run job hjob => ⟨job, ?_, rfl, fun _ => id, fun _ => id⟩, fun run job hjob => ?_⟩
    · rw [hone, List.getElem?_append_left (List.getElem?_eq_some_iff.mp hjob).1, hjob]
    · rw [hone, List.getElem?_append] at hjob
      split at hjob
      · exact .inl hjob
      · generalize run - s.jobs.length = i at hjob
        cases i with
        | zero =>
          cases hjob
          exact .inr rfl
        | succ i => cases hjob

/-- Asking for a file that the pass has not touched: the run that is left is joined, or else one is
started, and other files stay untouched. -/
theorem During.askFor (h : During paths s₀ s) {p : Path} (hp : Untouched s₀ s p) :
    Served s₀ (s.askFor p).2 { path := p, run := (s.askFor p).1 } ∧
      ∀ q, q.components ≠ p.components → Untouched s₀ s q → Untouched s₀ (s.askFor p).2 q := by
  unfold Refreshing.askFor
  obtain ⟨hrun, hnone, hstarted, hstates, hcurrent⟩ |
      ⟨hended, hrun, hstarted, hstates, hcurrent⟩ := s.flight.register_cases p.components false
  · have hleft : s.IsLeft p (s.flight.register p.components false).run := ⟨hrun, hnone⟩
    obtain ⟨outcome, hstate⟩ := h.consistent.registered _ _ hrun
    obtain ⟨job, hjob⟩ : ∃ job, s.jobs[(s.flight.register p.components false).run]? = some job := by
      have hlt := (List.getElem?_eq_some_iff.mp hstate).1
      rw [h.consistent.length_eq] at hlt
      exact ⟨_, List.getElem?_eq_getElem hlt⟩
    refine ⟨⟨job, ?_, (h.consistent.state _ _ _ _ hstate hjob).1, nofun, .inl ?_⟩, fun q _ hq => ?_⟩
    · simp only [hstarted]
      exact hjob
    · exact (hp.isLeft_iff _).mp hleft
    · exact hq.of_eq hcurrent hstates
  · have hlength : s.flight.runs.length = s.jobs.length := by
      rw [← Flight.length_states, h.consistent.length_eq]
    refine ⟨⟨{ path := p }, ?_, rfl, nofun, .inr ⟨fun run hleft => ?_, ?_, rfl⟩⟩, fun q hq hun => ?_⟩
    · simp only [hstarted, if_true, hrun, hlength]
      exact List.getElem?_concat_length
    · -- A run that was left would still be unfinished, and would have been joined.
      obtain ⟨hcur, hnone⟩ := (hp.isLeft_iff run).mpr hleft
      have hsome := hended run hcur
      rw [hnone] at hsome
      cases hsome
    · simp only [hrun, hlength]
      exact h.length_le
    · refine ⟨?_, fun run hqrun => ?_⟩
      · simp only [hcurrent, if_neg hq]
        exact hun.1
      · rw [← hun.2 run hqrun, Flight.outcome?_eq, Flight.outcome?_eq]
        obtain ⟨outcome, hstate⟩ := h.consistent.registered _ _ (hun.1.trans hqrun)
        simp only [hstates]
        rw [List.getElem?_append_left (List.getElem?_eq_some_iff.mp hstate).1]

/-- Taking the outcome of a request leaves other files untouched. -/
theorem During.finish (h : During paths s₀ s) {run : Nat} {job : Job} {p : Path}
    {outcome given : Except Error Record} {flight : Flight (List Component) Record}
    (hjob : s.jobs[run]? = some job) (hp : job.path.components = p.components)
    (hgiven : (s.flight.settle run outcome).finish run = some (given, flight)) :
    ∀ q, q.components ≠ p.components → Untouched s₀ s q → Untouched s₀ { s with flight } q := by
  obtain ⟨key, first, hfirst, hstates, hcurrent, -⟩ := Flight.finish_settle hgiven
  have hkey : p.components = key := hp.symm.trans (h.consistent.state _ _ _ _ hfirst hjob).1
  intro q hq hun
  refine ⟨?_, fun run' hrun' => ?_⟩
  · refine (hcurrent _).trans ?_
    rw [if_neg (fun hboth => hq (hboth.1.trans hkey.symm))]
    exact hun.1
  · rw [← hun.2 run' hrun', Flight.outcome?_eq, Flight.outcome?_eq]
    obtain ⟨o, ho⟩ := h.consistent.registered _ _ (hun.1.trans hrun')
    -- Runs of different files are different, and only one of them has got an outcome.
    have hne : run ≠ run' := by
      rintro rfl
      rw [hfirst] at ho
      exact hq ((Prod.mk.inj (Option.some.inj ho)).1.symm.trans hkey.symm)
    simp only [hstates, List.getElem?_set_ne hne]

/-- The invariant holds when the pass has begun. -/
theorem During.begin (hconsistent : s₀.Consistent) (hbegin : s₀.step .begin = some s) :
    During paths s₀ s := by
  simp only [step] at hbegin
  split at hbegin
  · cases hbegin
  · cases hbegin
    exact {
      consistent := hconsistent.of_eq rfl (fun _ => rfl) rfl
      hashContents_eq := rfl
      versions := fun _ _ => rfl
      kept := fun run job₀ hjob₀ => ⟨job₀, hjob₀, rfl, fun _ => id⟩
      taken := fun run job source hjob hsource => .inl ⟨job, hjob, hsource⟩
      detecting := fun _ _ p => ⟨rfl, fun _ _ => rfl⟩
      converting := by
        intro wasStale layout ahead requests hstage
        cases hstage }

/-- What holds of the requests and of the files ahead still does when the next file has been asked for. -/
theorem During.converting_askFor (hlisted : (paths.map Path.components).Nodup) (h : During paths s₀ s)
    {wasStale : Bool} {layout : Layout} {p : Path} {ahead : List Path} {requests : List Request}
    (hpass : s.pass = some ⟨wasStale, .converting layout (p :: ahead) requests⟩)
    (hfiles : layout.files = paths) :
    (requests ++ [(⟨p, (s.askFor p).1, none⟩ : Request)]).map Request.path ++ ahead = paths ∧
      (∀ q ∈ ahead, Untouched s₀ (s.askFor p).2 q) ∧
      ∀ request ∈ requests ++ [(⟨p, (s.askFor p).1, none⟩ : Request)],
        Served s₀ (s.askFor p).2 request := by
  obtain ⟨horder, hahead, hserved⟩ := h.converting wasStale layout _ _ hpass hfiles
  -- The file that is asked for is none of those ahead, since no file is listed twice.
  obtain ⟨hjoined, hothers⟩ := h.askFor (hahead p (.head _))
  refine ⟨by simpa using horder, fun q hq => ?_, fun request hrequest => ?_⟩
  · refine hothers q (fun heq => ?_) (hahead q (.tail _ hq))
    rw [← horder, List.map_append] at hlisted
    have hp := (List.nodup_cons.mp (List.nodup_append.mp hlisted).2.1).1
    exact hp (heq ▸ List.mem_map_of_mem hq)
  · obtain hrequest | hrequest := List.mem_append.mp hrequest
    · exact (hserved request hrequest).mono (follow_askFor s p).1
    · rw [List.mem_singleton.mp hrequest]
      exact hjoined

/-- It still does when a request has been given its outcome. -/
theorem During.converting_finish (hlisted : (paths.map Path.components).Nodup) (h : During paths s₀ s)
    {wasStale : Bool} {layout : Layout} {ahead : List Path} {requests : List Request} {position : Nat}
    {request : Request} {outcome given : Except Error Record} {job : Job}
    {flight : Flight (List Component) Record}
    (hpass : s.pass = some ⟨wasStale, .converting layout ahead requests⟩)
    (hrequest : requests[position]? = some request) (hjob : s.jobs[request.run]? = some job)
    (houtcome : job.outcome = some outcome)
    (hgiven : (s.flight.settle request.run outcome).finish request.run = some (given, flight))
    (hfiles : layout.files = paths) :
    (requests.set position { request with outcome := some given }).map Request.path ++ ahead = paths ∧
      (∀ q ∈ ahead, Untouched s₀ { s with flight } q) ∧
      ∀ request' ∈ requests.set position { request with outcome := some given },
        Served s₀ { s with flight } request' := by
  obtain ⟨-, hok⟩ := h.consistent.finish { s with flight } hjob houtcome rfl hgiven
  obtain ⟨horder, hahead, hserved⟩ := h.converting wasStale layout _ _ hpass hfiles
  obtain ⟨hlt, rfl⟩ := List.getElem?_eq_some_iff.mp hrequest
  have hmem : requests[position] ∈ requests := List.getElem_mem hlt
  obtain ⟨job', hjob', hcomponents, -, hrun⟩ := hserved _ hmem
  rw [hjob] at hjob'
  cases hjob'
  refine ⟨?_, fun q hq => ?_, fun request' hrequest' => ?_⟩
  · -- The request keeps its path.
    have hsame : (requests.map Request.path).set position requests[position].path
        = requests.map Request.path := by
      rw [← List.getElem_map Request.path (h := by simpa using hlt), List.set_getElem_self]
    rw [← horder, List.map_set, hsame]
  · refine h.finish hjob hcomponents hgiven q (fun heq => ?_) (hahead q hq)
    rw [← horder, List.map_append] at hlisted
    exact (List.nodup_append.mp hlisted).2.2 _ (List.mem_map_of_mem (List.mem_map_of_mem hmem)) _
      (List.mem_map_of_mem hq) heq.symm
  · obtain hrequest' | rfl := List.mem_or_eq_of_mem_set hrequest'
    · exact (hserved request' hrequest').mono (.of_eq rfl)
    · refine ⟨job, hjob, hcomponents, fun r hr => ?_, hrun⟩
      rw [houtcome, hok r (Option.some.inj hr)]

/-- The invariant is kept by every event of the pass that leaves its files as they are. -/
theorem During.step (hlisted : (paths.map Path.components).Nodup) (h : During paths s₀ s)
    (hstep : Undisturbed paths s s') : During paths s₀ s' := by
  obtain ⟨⟨event, hevent⟩, hbefore, hafter, hversions⟩ := hstep
  have hmove := move_of_step hevent
  have hconsistent := h.consistent.move hmove
  cases hmove with
  | edit files =>
    refine h.next hconsistent rfl hversions (.of_eq rfl) ?_ h.detecting h.converting
    exact fun run job source hjob hsource => .inl ⟨job, hjob, rfl, hsource⟩
  | begin hpass =>
    rw [hpass] at hbefore
    cases hbefore
  | detect wasStale layout hpass hlayout =>
    refine h.next hconsistent rfl hversions (.of_eq rfl) ?_ nofun ?_
    · exact fun run job source hjob hsource => .inl ⟨job, hjob, rfl, hsource⟩
    · intro wasStale' layout' ahead requests hstage hfiles
      cases hstage
      exact ⟨hfiles, fun p _ => h.detecting wasStale hpass p, nofun⟩
  | take run job source hjob hsource houtcome htake =>
    refine h.progress hconsistent rfl hversions rfl rfl hjob rfl ⟨rfl, ?_, fun _ => id⟩ ?_
    · intro source' hsource'
      rw [hsource] at hsource'
      cases hsource'
    · intro source' hsource'
      cases hsource'
      exact .inr htake
  | lose run job e hjob hsource houtcome hlose =>
    refine h.progress hconsistent rfl hversions rfl rfl hjob rfl ⟨rfl, fun _ => id, ?_⟩
      fun source' => .inl
    intro o ho
    rw [houtcome] at ho
    cases ho
  | convert run job source outcome workspace files hjob hsource houtcome hconvert =>
    have hhash := Workspace.hashContents_of_setup (Workspace.setup_ensureVersion hconvert)
    refine h.progress hconsistent hhash hversions rfl rfl hjob rfl ⟨rfl, fun _ => id, ?_⟩
      fun source' => .inl
    intro o ho
    rw [houtcome] at ho
    cases ho
  | ask wasStale layout p ahead requests hpass =>
    obtain ⟨hall, hnew⟩ := follow_askFor s p
    refine h.next hconsistent rfl hversions hall ?_ ?_ ?_
    · intro run job source hjob hsource
      obtain hjob | hnone := hnew run job hjob
      · exact .inl ⟨job, hjob, rfl, hsource⟩
      · rw [hnone] at hsource
        cases hsource
    · intro wasStale' hstage
      cases hstage
    · intro wasStale' layout' ahead' requests' hstage hfiles
      cases hstage
      exact h.converting_askFor hlisted hpass hfiles
  | collect wasStale layout ahead requests position request outcome given job flight hpass
      hrequest hopen hjob houtcome hgiven =>
    refine h.next hconsistent rfl hversions (.of_eq rfl) ?_ ?_ ?_
    · exact fun run job source hjob hsource => .inl ⟨job, hjob, rfl, hsource⟩
    · intro wasStale' hstage
      cases hstage
    · intro wasStale' layout' ahead' requests' hstage hfiles
      cases hstage
      exact h.converting_finish hlisted hpass hrequest hjob houtcome hgiven hfiles
  | conclude flight files pass built hpass hstates hcurrent => cases hafter

/-- The invariant holds all through a pass. -/
theorem During.of_undisturbed (hlisted : (paths.map Path.components).Nodup)
    (hconsistent : s₀.Consistent) (hbegin : s₀.step .begin = some s)
    (hrun : Relation.ReflTransGen (Undisturbed paths) s s') : During paths s₀ s' := by
  induction hrun with
  | refl => exact .begin hconsistent hbegin
  | tail _ hstep ih => exact ih.step hlisted hstep

end

/-! ### The end of a pass -/

/-- After a pass that has succeeded the snapshot holds records that agree with the candidate's. -/
theorem record_of_conclude {s : Refreshing} {wasStale swapped : Bool}
    {built : Except Error Snapshot}
    (h : (s.conclude wasStale built).answer = some (.ok swapped)) :
    ∃ snapshot, built = .ok snapshot ∧ ∀ key e, snapshot.conversions.get? key = some e →
      ∃ e', (s.conclude wasStale built).table.current.conversions.get? key = some e' ∧
        e'.record.source.same e.record.source = true := by
  have hfinish : s.table.finishPass s.workspace s.files wasStale built = (.ok swapped, _, _, _) :=
    Prod.ext (Option.some.inj h) rfl
  obtain ⟨snapshot, hbuilt, hcurrent⟩ := LiveTable.current_of_finishPass hfinish
  refine ⟨snapshot, hbuilt, fun key e he => ?_⟩
  obtain hnew | ⟨hold, hsame⟩ := hcurrent
  · exact ⟨e, (congrArg (fun t => t.conversions.get? key) hnew).trans he,
      Fingerprint.same_refl _⟩
  · obtain ⟨e', he', hrecord⟩ := Snapshot.record_of_sameContent hsame he
    refine ⟨e', (congrArg (fun t => t.conversions.get? key) hold).trans he', ?_⟩
    simp only [Record.same, Bool.and_eq_true] at hrecord
    exact hrecord.1.1.1.1

/-- Once all outcomes are known there is one for each request. -/
theorem of_results? {requests : List Request} {results : List (Path × Except Error Record)}
    (h : Request.results? requests = some results) :
    results.map Prod.fst = requests.map Request.path ∧
      ∀ request ∈ requests, ∃ o, request.outcome = some o ∧ (request.path, o) ∈ results := by
  unfold Request.results? at h
  induction requests generalizing results with
  | nil =>
    cases h
    exact ⟨rfl, nofun⟩
  | cons request rest ih =>
    rw [List.mapM_cons] at h
    obtain ⟨result, hresult, h⟩ := Option.bind_eq_some_iff.mp h
    obtain ⟨results', hresults, h⟩ := Option.bind_eq_some_iff.mp h
    obtain ⟨outcome, houtcome, rfl⟩ := Option.map_eq_some_iff.mp hresult
    cases h
    obtain ⟨hpaths, hall⟩ := ih hresults
    refine ⟨congrArg (request.path :: ·) hpaths, fun other hother => ?_⟩
    obtain rfl | hother := List.mem_cons.mp hother
    · exact ⟨outcome, houtcome, .head _⟩
    · obtain ⟨o, ho, hmem⟩ := hall other hother
      exact ⟨o, ho, .tail _ hmem⟩

/-- A pass that ends has all outcomes, and is concluded with a candidate of them. -/
theorem of_complete {s s' : Refreshing} {layout : Layout} (hlayout : s.layout? = some layout)
    (h : s.step .complete = some s') :
    ∃ wasStale requests results, s.pass = some ⟨wasStale, .converting layout [] requests⟩ ∧
      Request.results? requests = some results ∧
      s' = { s with files := s.files.tick }.conclude wasStale
        (s.table.assemble s.files LiveTable.uninterrupted layout results) := by
  simp only [step] at h
  split at h
  · next wasStale layout' requests hpass =>
    obtain ⟨results, hresults, h⟩ := Option.bind_eq_some_iff.mp h
    cases h
    simp only [layout?, hpass, Option.some.injEq] at hlayout
    subst hlayout
    exact ⟨wasStale, requests, results, hpass, hresults, rfl⟩
  · cases h

/-- A record that a request of a pass was given is one of the version that its file had, just when no
other version was left behind. -/
theorem During.same_iff {paths : List Path} {s₀ s : Refreshing} (h : During paths s₀ s)
    (hconsistent : s₀.Consistent) {request : Request} {r : Record} (hserved : Served s₀ s request)
    (hmem : request.path ∈ paths) (hr : request.outcome = some (.ok r)) :
    (∃ f, s₀.versionOf request.path = .ok f ∧ r.source.same f = true) ↔
      ¬ s₀.LeftBehind request.path := by
  obtain ⟨job, hjob, hcomponents, houtcome, hrun⟩ := hserved
  obtain ⟨source, hsource, hsame⟩ := h.consistent.record _ job r hjob (houtcome r hr)
  obtain ⟨hcurrent, hnone⟩ | ⟨hnoneLeft, hlength, hpath⟩ := hrun
  · -- The run was left behind: what its worker had taken is what the record is about.
    obtain ⟨outcome, hstate⟩ := hconsistent.registered _ _ hcurrent
    obtain ⟨job₀, hjob₀⟩ : ∃ job₀, s₀.jobs[request.run]? = some job₀ := by
      have hlt := (List.getElem?_eq_some_iff.mp hstate).1
      rw [hconsistent.length_eq] at hlt
      exact ⟨_, List.getElem?_eq_getElem hlt⟩
    obtain ⟨job', hjob', -, hkept⟩ := h.kept _ job₀ hjob₀
    rw [hjob] at hjob'
    cases hjob'
    constructor
    · rintro ⟨f, hf, hrf⟩ ⟨run, job₁, ⟨hrun, -⟩, hjob₁, hother⟩
      rw [hcurrent] at hrun
      cases hrun
      rw [hjob₀] at hjob₁
      cases hjob₁
      obtain ⟨source', hsource', hdiffers⟩ := hother f hf
      rw [hkept source' hsource'] at hsource
      cases hsource
      exact hdiffers (Fingerprint.same_trans (Fingerprint.same_symm hsame) hrf)
    · intro hnot
      by_contra hall
      refine hnot ⟨request.run, job₀, ⟨hcurrent, hnone⟩, hjob₀, fun f hf => ?_⟩
      obtain ⟨job₁, hjob₁, hsource₁⟩ | ⟨fs, htaken, hfiles⟩ := h.taken _ job source hjob hsource
      · rw [hjob₀] at hjob₁
        cases hjob₁
        exact ⟨source, hsource₁, fun hsf => hall ⟨f, hf, Fingerprint.same_trans hsame hsf⟩⟩
      · have hnow := Fingerprint.same_of_compute (Path.same_iff.mpr hcomponents) htaken
          ((hfiles _ hmem).trans hf)
        exact absurd ⟨f, hf, Fingerprint.same_trans hsame hnow⟩ hall
  · -- The run was started in this pass, so its worker has found the file as it is.
    refine ⟨fun _ ⟨run, _, hleft, _⟩ => hnoneLeft run hleft, fun _ => ⟨source, ?_, hsame⟩⟩
    obtain ⟨job₁, hjob₁, -⟩ | ⟨fs, htaken, hfiles⟩ := h.taken _ job source hjob hsource
    · have hlt := (List.getElem?_eq_some_iff.mp hjob₁).1
      omega
    · rw [← hfiles _ hmem, ← hpath, htaken]

/-- A refresh that succeeds shows a file as it was during the pass, unless a run is left behind whose
worker has taken another version. -/
theorem refresh_shows_iff {s₀ s₁ s₂ s₃ : Refreshing} {swapped : Bool} {layout : Layout} {file : Path}
    (hreachable : s₀.Reachable) (hbegin : s₀.step .begin = some s₁)
    (hrun : Relation.ReflTransGen (Undisturbed layout.files) s₁ s₂)
    (hlayout : s₂.layout? = some layout) (hend : s₂.step .complete = some s₃)
    (hok : s₃.answer = some (.ok swapped)) (hlisted : (layout.files.map Path.components).Nodup)
    (hfile : file ∈ layout.files) :
    s₃.Shows file s₀ ↔ ¬ s₀.LeftBehind file := by
  have hconsistent := consistent_of_reachable hreachable
  have hduring := During.of_undisturbed hlisted hconsistent hbegin hrun
  obtain ⟨wasStale, requests, results, hpass, hresults, rfl⟩ := of_complete hlayout hend
  obtain ⟨horder, -, hserved⟩ := hduring.converting _ _ _ _ hpass rfl
  rw [List.append_nil] at horder
  obtain ⟨hpaths, hgiven⟩ := of_results? hresults
  obtain ⟨snapshot, hbuilt, hcurrent⟩ := record_of_conclude hok
  obtain ⟨hall, _, _, -, -, rfl⟩ := LiveTable.assemble_eq_ok.mp hbuilt
  -- The file's request was given a record, and the snapshot has one that agrees with it.
  have hmem : file ∈ requests.map Request.path := horder ▸ hfile
  obtain ⟨request, hrequest, rfl⟩ := List.mem_map.mp hmem
  obtain ⟨outcome, houtcome, hresult⟩ := hgiven request hrequest
  obtain ⟨r, rfl⟩ : ∃ r, outcome = .ok r := hall _ hresult
  have hnodup : (results.map fun result => result.1.components).Nodup := by
    rw [← horder, ← hpaths, List.map_map] at hlisted
    exact hlisted
  obtain ⟨writtenAs, hget⟩ := LiveTable.get?_conversions hnodup hresult
  obtain ⟨e, he, hsame⟩ := hcurrent _ _ hget
  rw [← hduring.same_iff hconsistent (hserved request hrequest) hfile houtcome]
  constructor
  · rintro ⟨e', f, he', hf, hef⟩
    rw [he] at he'
    cases he'
    exact ⟨f, hf, Fingerprint.same_trans (Fingerprint.same_symm hsame) hef⟩
  · rintro ⟨f, hf, hrf⟩
    exact ⟨e, f, he, hf, Fingerprint.same_trans hsame hrf⟩

/-! ### A run that was left behind -/

section Overtaken

/-- The source of a table of one file. -/
def overtakenFile : Path := ⟨"a.arrow"⟩

/-- A tree with that file, as it was written at some time. -/
def overtakenFiles (modified : Int) : Files :=
  { nodes := ⟨[(["a.arrow"], .file (Artifact.mark .arrow ++ [1, 0, 1, 0, 1, 2]) modified)]⟩
    home := [], clock := 5 }

/-- A pass is called off when the worker has taken the version of time 1. The file is written again at
time 2, and then there is a second pass that nobody calls off. -/
def overtakenEvents : List Event :=
  [.begin, .detect, .ask, .work 0, .callOff, .edit (overtakenFiles 2),
   .begin, .detect, .ask, .work 0, .collect 0, .complete]

/-- The table before these events. -/
def overtakenStart : Refreshing where
  table := { name := "t", origin := .file overtakenFile none, maxDepth := 8, interval := none }
  workspace := {
    ledger := .initial ⟨"d"⟩, cache := { maxBytes := 0 }, registry := Format.all
    options := ⟨.parquet, 8192, 1000⟩, hashContents := false, artifactDir := ⟨"d/artifacts"⟩
    parallelism := 4, performed := 0 }
  files := overtakenFiles 1

/-- The table when the first of these events have happened. -/
def overtaken (n : Nat) : Refreshing :=
  (overtakenStart.steps (overtakenEvents.take n)).getD overtakenStart

/-- The second pass begins when no pass is in flight, its file stays as it is, and it succeeds, but the
snapshot shows the file as it was before the second pass had begun. -/
theorem refresh_shows_overtaken :
    ∃ (s₀ s₁ s₂ s₃ : Refreshing) (layout : Layout) (file : Path), s₀.Reachable ∧
      s₀.step .begin = some s₁ ∧ Relation.ReflTransGen (Undisturbed layout.files) s₁ s₂ ∧
      s₂.layout? = some layout ∧ s₂.step .complete = some s₃ ∧ s₃.answer = some (.ok true) ∧
      (layout.files.map Path.components).Nodup ∧ file ∈ layout.files ∧ ¬ s₃.Shows file s₀ := by
  -- Up to the sixth event the first pass is called off; the second one has the others.
  have step (n : Nat) (event : Event) (hevent : overtakenEvents[n]? = some event)
      (h : (overtakenStart.steps (overtakenEvents.take (n + 1))).isSome) :
      (overtaken n).step event = some (overtaken (n + 1)) := step_of_steps hevent h
  have hreachable : (overtaken 6).Reachable := by
    have hsome : (overtakenStart.steps (overtakenEvents.take 6)).isSome := by decide +kernel
    obtain ⟨s, hs⟩ := Option.isSome_iff_exists.mp hsome
    refine ⟨overtakenStart.table, overtakenStart.workspace, overtakenStart.files, ?_⟩
    rw [overtaken, hs]
    exact reflTransGen_of_steps hs
  have hbegin := step 6 .begin rfl (by decide +kernel)
  have hrun : Relation.ReflTransGen (Undisturbed (Origin.singleFile overtakenFile).files)
      (overtaken 7) (overtaken 11) := by
    have quiet (n : Nat) (event : Event) (hstep : (overtaken n).step event = some (overtaken (n + 1)))
        (hpasses : ((overtaken n).pass.isSome && (overtaken (n + 1)).pass.isSome) = true)
        (hversion : (overtaken (n + 1)).versionOf overtakenFile
          = (overtaken n).versionOf overtakenFile) :
        Undisturbed (Origin.singleFile overtakenFile).files (overtaken n) (overtaken (n + 1)) := by
      rw [Bool.and_eq_true] at hpasses
      refine ⟨⟨event, hstep⟩, hpasses.1, hpasses.2, fun p hp => ?_⟩
      rw [List.mem_singleton.mp hp]
      exact hversion
    refine .head (quiet 7 .detect (step 7 _ rfl (by decide +kernel)) (by decide +kernel)
      (by decide +kernel)) ?_
    refine .head (quiet 8 .ask (step 8 _ rfl (by decide +kernel)) (by decide +kernel)
      (by decide +kernel)) ?_
    refine .head (quiet 9 (.work 0) (step 9 _ rfl (by decide +kernel)) (by decide +kernel)
      (by decide +kernel)) ?_
    exact .single (quiet 10 (.collect 0) (step 10 _ rfl (by decide +kernel)) (by decide +kernel)
      (by decide +kernel))
  have hend := step 11 .complete rfl (by decide +kernel)
  have hlisted : ((Origin.singleFile overtakenFile).files.map Path.components).Nodup :=
    List.pairwise_singleton _ _
  have hfile : overtakenFile ∈ (Origin.singleFile overtakenFile).files := .head _
  have hok : (overtaken 12).answer = some (.ok true) := by decide +kernel
  have hlayout : (overtaken 11).layout? = some (Origin.singleFile overtakenFile) := by
    decide +kernel
  refine ⟨_, _, _, _, _, overtakenFile, hreachable, hbegin, hrun, hlayout, hend, hok, hlisted, hfile, ?_⟩
  rw [refresh_shows_iff hreachable hbegin hrun hlayout hend hok hlisted hfile, not_not]
  -- The first run is still registered, and its worker holds the version of time 1.
  obtain ⟨job, hjob, hsource⟩ : ∃ job, (overtaken 6).jobs[0]? = some job ∧
      job.source = some ⟨overtakenFile, 22, 1, none⟩ := by
    refine Option.bind_eq_some_iff.mp (?_ : ((overtaken 6).jobs[0]?).bind Job.source = _)
    decide +kernel
  refine ⟨0, job, ⟨by decide +kernel, by decide +kernel⟩, hjob, fun f hf => ⟨_, hsource, ?_⟩⟩
  have hnow : (overtaken 6).versionOf overtakenFile = .ok ⟨overtakenFile, 22, 2, none⟩ := by
    decide +kernel
  rw [hnow] at hf
  cases hf
  decide +kernel

end Overtaken

end SourceTables.Refreshing

import SourceTables.Proofs.Flight.Runs
import SourceTables.SharedTable

/-!
# `SourceTables.Proofs.SharedTable.Moves`: what an event can do to a shared table

The theorems:

* `move_of_step`: every event makes one of a few moves, each written out with all that it changes. The
  invariants below and in the modules that follow are proved move by move.
* `coherent_of_steps`: whatever has happened, an unfinished pass is the one that is registered, a
  finished one has told its outcome, and an error that is about to be told has set the flag as it should.
* `Coherent.unique`: no two passes are unfinished at the same time.
-/

set_option autoImplicit false

namespace SourceTables.SharedTable

/-! ### Moves -/

/-- A call that has come further. -/
def Call.to (c : Call) (progress : Progress) : Call := { c with progress }

/-- A pass that has come further. -/
def Pass.to (pass : Pass) (stage : Stage) : Pass := { pass with stage }

/-- What one event does. -/
inductive Move (s : SharedTable) : Event → SharedTable → Prop
  | cancel (token : Nat) : Move s (.cancel token) { s with cancelled := token :: s.cancelled }
  | markStale : Move s .markStale { s with table := s.table.markStale }
  | setInterval (seconds : Option Nat) :
    Move s (.setInterval seconds) { s with table := { s.table with interval := seconds } }
  | takeError : Move s .takeError { s with table := s.table.takeError.2 }
  | refresh (token : Option Nat) :
    Move s (.refresh token) { s with calls := s.calls ++ [⟨token, false, .asking⟩] }
  | scan : Move s .scan { s with calls := s.calls ++ [⟨none, true, .looking⟩] }
  | look (call : Nat) (c : Call) (hcall : s.calls[call]? = some c) (hprogress : c.progress = .looking) :
    Move s (.look call)
      (s.setCall call (c.to (if s.table.stale then .asking else .timing)))
  | time (call now : Nat) (c : Call) (hcall : s.calls[call]? = some c) (hprogress : c.progress = .timing) :
    Move s (.time call now)
      (s.setCall call (c.to (if s.table.isOverdue now then .asking else .reading none)))
  | ask (call : Nat) (c : Call) (hcall : s.calls[call]? = some c) (hprogress : c.progress = .asking) :
    Move s (.ask call)
      { s.setCall call (c.to (.waiting (s.flight.register () true).run
          (s.flight.register () true).started)) with
        flight := (s.flight.register () true).flight
        passes := if (s.flight.register () true).started then s.passes ++ [{ token := c.token }]
          else s.passes }
  | collect (call run : Nat) (started : Bool) (c : Call) (outcome : Except Error Snapshot)
    (flight : Flight Unit Snapshot) (hcall : s.calls[call]? = some c)
    (hprogress : c.progress = .waiting run started)
    (hfinish : s.flight.finish run = some (outcome, flight)) :
    Move s (.collect call) { s.setCall call
      (c.to (next c.scans (s.isCancelled c.token) outcome)) with flight }
  | giveUp (call run : Nat) (c : Call) (hcall : s.calls[call]? = some c)
    (hprogress : c.progress = .waiting run false) (hcancelled : s.isCancelled c.token = true) :
    Move s (.giveUp call) { s.setCall call (c.to (.answered (.error .cancelled))) with
      flight := s.flight.leave run }
  | defer (call : Nat) (failure : Error) (c : Call) (hcall : s.calls[call]? = some c)
    (hprogress : c.progress = .deferring failure) :
    Move s (.defer call) { s.setCall call (c.to (.reading (some failure))) with
      table := { s.table with deferred := some failure } }
  | read (call : Nat) (failure : Option Error) (c : Call) (hcall : s.calls[call]? = some c)
    (hprogress : c.progress = .reading failure) :
    Move s (.read call) (s.setCall call (c.to (.scanned s.table.current failure)))
  | drop (call : Nat) (c : Call) (hcall : s.calls[call]? = some c) :
    Move s (.drop call) { s.setCall call (c.to .gone) with
      flight := leaving s.flight c.progress }
  | begin (run : Nat) (pass : Pass) (hpass : s.passes[run]? = some pass)
    (hstage : pass.stage = .registered) :
    Move s (.begin run) { s.setPass run ⟨pass.token, s.table.stale, .building⟩ with
      table := { s.table with stale := false } }
  | build (run : Nat) (outcome : Except Error Snapshot) (pass : Pass)
    (hpass : s.passes[run]? = some pass) (hstage : pass.stage = .building) :
    Move s (.build run outcome) { s.setPass run (pass.to (.built outcome)) with
      table := s.table.countPass }
  /-- A pass was called off although it has built a candidate. -/
  | callOff (run : Nat) (candidate : Snapshot) (pass : Pass) (hpass : s.passes[run]? = some pass)
    (hstage : pass.stage = .built (.ok candidate)) (hcancelled : s.isCancelled pass.token = true) :
    Move s (.check run) { s.setPass run (pass.to (.ended (.error .cancelled))) with
      table := s.table.restoreStale pass.wasStale }
  | fail (run : Nat) (e : Error) (pass : Pass) (hpass : s.passes[run]? = some pass)
    (hstage : pass.stage = .built (.error e)) :
    Move s (.check run) { s.setPass run (pass.to (.ended (.error e))) with
      table := s.table.restoreStale (LiveTable.asksAgain pass.wasStale e) }
  | succeed (run : Nat) (candidate : Snapshot) (pass : Pass) (hpass : s.passes[run]? = some pass)
    (hstage : pass.stage = .built (.ok candidate)) (hcancelled : s.isCancelled pass.token = false) :
    Move s (.check run) (s.setPass run (pass.to (.publishing candidate)))
  | publish (run : Nat) (candidate : Snapshot) (pass : Pass) (hpass : s.passes[run]? = some pass)
    (hstage : pass.stage = .publishing candidate) :
    Move s (.publish run)
      { s.setPass run (pass.to (.published (s.table.publish candidate).current)) with
        table := s.table.publish candidate }
  | stamp (run now : Nat) (snapshot : Snapshot) (pass : Pass) (hpass : s.passes[run]? = some pass)
    (hstage : pass.stage = .published snapshot) :
    Move s (.stamp run now) { s.setPass run (pass.to (.ended (.ok snapshot))) with
      table := s.table.stamp now }
  | settle (run : Nat) (outcome : Except Error Snapshot) (pass : Pass)
    (hpass : s.passes[run]? = some pass) (hstage : pass.stage = .ended outcome) :
    Move s (.settle run) { s with flight := s.flight.settle run outcome }
  | forget (run : Nat) : Move s (.forget run) { s with flight := s.flight.driverDone run }

/-- Every event makes a move. -/
theorem move_of_step {s s' : SharedTable} {event : Event} (h : s.step event = some s') :
    Move s event s' := by
  cases event with
  | cancel token => cases h; exact .cancel token
  | markStale => cases h; exact .markStale
  | setInterval seconds => cases h; exact .setInterval seconds
  | takeError => cases h; exact .takeError
  | refresh token => cases h; exact .refresh token
  | scan => cases h; exact .scan
  | look call =>
    simp only [step] at h
    split at h
    · next hcall => cases h; exact .look call _ hcall rfl
    · cases h
  | time call now =>
    simp only [step] at h
    split at h
    · next hcall => cases h; exact .time call now _ hcall rfl
    · cases h
  | ask call =>
    simp only [step] at h
    split at h
    · next hcall => cases h; exact .ask call _ hcall rfl
    · cases h
  | collect call =>
    simp only [step] at h
    split at h
    · next hcall =>
      obtain ⟨⟨outcome, flight⟩, hfinish, h⟩ := Option.bind_eq_some_iff.mp h
      cases h
      exact .collect call _ _ _ outcome flight hcall rfl hfinish
    · cases h
  | giveUp call =>
    simp only [step] at h
    split at h
    · next hcall =>
      split at h
      · next hcancelled => cases h; exact .giveUp call _ _ hcall rfl hcancelled
      · cases h
    · cases h
  | defer call =>
    simp only [step] at h
    split at h
    · next hcall => cases h; exact .defer call _ _ hcall rfl
    · cases h
  | read call =>
    simp only [step] at h
    split at h
    · next hcall => cases h; exact .read call _ _ hcall rfl
    · cases h
  | drop call =>
    simp only [step] at h
    split at h
    · next hcall => cases h; exact .drop call _ hcall
    · cases h
  | begin run =>
    simp only [step] at h
    split at h
    · next hpass => cases h; exact .begin run _ hpass rfl
    · cases h
  | build run outcome =>
    simp only [step] at h
    split at h
    · next hpass => cases h; exact .build run outcome _ hpass rfl
    · cases h
  | check run =>
    simp only [step] at h
    split at h
    · next hpass =>
      split at h
      · next hcancelled => cases h; exact .callOff run _ _ hpass rfl hcancelled
      · next hcancelled =>
        cases h
        exact .succeed run _ _ hpass rfl (Bool.eq_false_iff.mpr hcancelled)
    · next hpass => cases h; exact .fail run _ _ hpass rfl
    · cases h
  | publish run =>
    simp only [step] at h
    split at h
    · next hpass => cases h; exact .publish run _ _ hpass rfl
    · cases h
  | stamp run now =>
    simp only [step] at h
    split at h
    · next hpass => cases h; exact .stamp run now _ _ hpass rfl
    · cases h
  | settle run =>
    simp only [step] at h
    split at h
    · next hpass => cases h; exact .settle run _ _ hpass rfl
    · cases h
  | forget run => cases h; exact .forget run

/-! ### Passes and the register -/

/-- Whether a pass runs: it has begun and has not told its outcome. -/
def Running (s : SharedTable) (run : Nat) : Prop :=
  ∃ pass, s.passes[run]? = some pass ∧ pass.stage ≠ .registered ∧ s.flight.outcome? run = none

/-- Whether the passes are as the register and the flag say. -/
structure Coherent (s : SharedTable) : Prop where
  length : s.passes.length = s.flight.runs.length
  /-- An unfinished pass is the one that is registered. -/
  registered : ∀ run < s.passes.length, s.flight.outcome? run = none → s.flight.current? () = some run
  /-- What is registered is a pass. -/
  known : ∀ run, s.flight.current? () = some run → run < s.passes.length
  /-- A finished pass has told its outcome. -/
  told : ∀ run pass outcome, s.passes[run]? = some pass → s.flight.outcome? run = some outcome →
    pass.stage = .ended outcome
  /-- An error that is about to be told has set the flag, unless the pass was only called off and no
  refresh was asked for when it began. -/
  restored : ∀ run pass e, s.passes[run]? = some pass → pass.stage = .ended (.error e) →
    s.flight.outcome? run = none → s.table.stale = true ∨ e.root = .cancelled ∧ pass.wasStale = false

variable {s s' : SharedTable} {run run' : Nat} {pass pass' : Pass}

/-- No two passes are unfinished at the same time. -/
theorem Coherent.unique (h : s.Coherent) (hpass : s.passes[run]? = some pass)
    (hpass' : s.passes[run']? = some pass') (hopen : s.flight.outcome? run = none)
    (hopen' : s.flight.outcome? run' = none) : run = run' := by
  have hrun := h.registered run (List.getElem?_eq_some_iff.mp hpass).1 hopen
  have hrun' := h.registered run' (List.getElem?_eq_some_iff.mp hpass').1 hopen'
  rw [hrun] at hrun'
  exact Option.some.inj hrun'

/-- A pass that has something left to do has told nothing. -/
theorem Coherent.outcome?_eq_none (h : s.Coherent) (hpass : s.passes[run]? = some pass)
    (hstage : ∀ outcome, pass.stage ≠ .ended outcome) : s.flight.outcome? run = none := by
  cases houtcome : s.flight.outcome? run with
  | none => rfl
  | some outcome => exact absurd (h.told run pass outcome hpass houtcome) (hstage outcome)

theorem coherent_ofTable (t : LiveTable) : (ofTable t).Coherent :=
  ⟨rfl, fun _ hrun => absurd hrun (Nat.not_lt_zero _), nofun, nofun, nofun⟩

/-- What callers do among themselves keeps passes as they are. -/
theorem Coherent.frame (h : s.Coherent) (hpasses : s'.passes = s.passes)
    (hflight : Flight.Forgets s.flight s'.flight)
    (hstale : s.table.stale = true → s'.table.stale = true) : s'.Coherent := by
  refine ⟨by rw [hpasses, hflight.length, h.length], fun run hrun hopen => ?_, fun run hrun => ?_,
    fun run pass outcome hpass houtcome => ?_, fun run pass e hpass hstage hopen => ?_⟩
  · rw [hpasses] at hrun
    rw [hflight.outcome?] at hopen
    have hcurrent := h.registered run hrun hopen
    rcases hflight.current () with hsame | ⟨-, id, hid, hfinished⟩
    · rw [hsame, hcurrent]
    · -- Only a finished run is taken off the register.
      rw [hcurrent] at hid
      cases hid
      rw [hopen] at hfinished
      cases hfinished
  · rw [hpasses]
    rcases hflight.current () with hsame | ⟨hnone, -⟩
    · exact h.known run (hsame ▸ hrun)
    · rw [hnone] at hrun
      cases hrun
  · rw [hpasses] at hpass
    rw [hflight.outcome?] at houtcome
    exact h.told run pass outcome hpass houtcome
  · rw [hpasses] at hpass
    rw [hflight.outcome?] at hopen
    exact (h.restored run pass e hpass hstage hopen).imp_left hstale

/-- A pass that comes further is still the only unfinished one. -/
theorem Coherent.setPass (h : s.Coherent) (hpass : s.passes[run]? = some pass)
    (hstage : ∀ outcome, pass.stage ≠ .ended outcome) (hpasses : s'.passes = s.passes.set run pass')
    (hflight : s'.flight = s.flight)
    (hrestored : ∀ e, pass'.stage = .ended (.error e) →
      s'.table.stale = true ∨ e.root = .cancelled ∧ pass'.wasStale = false) : s'.Coherent := by
  have hopen := h.outcome?_eq_none hpass hstage
  have hlt := (List.getElem?_eq_some_iff.mp hpass).1
  refine ⟨by rw [hpasses, hflight, List.length_set, h.length], fun other hother hopen' => ?_,
    fun other hother => by rw [hpasses, List.length_set]; exact h.known other (hflight ▸ hother),
    fun other pass'' outcome hpass'' houtcome => ?_, fun other pass'' e hpass'' hended hopen' => ?_⟩
  · rw [hpasses, List.length_set] at hother
    rw [hflight] at hopen' ⊢
    exact h.registered other hother hopen'
  · rw [hflight] at houtcome
    have hne : run ≠ other := by
      rintro rfl
      rw [hopen] at houtcome
      cases houtcome
    rw [hpasses, List.getElem?_set_ne hne] at hpass''
    exact h.told other pass'' outcome hpass'' houtcome
  -- An error that is about to be told is that of an unfinished pass, so it is the one of this pass.
  · rw [hflight] at hopen'
    have hother : other < s.passes.length := by
      have := (List.getElem?_eq_some_iff.mp hpass'').1
      rwa [hpasses, List.length_set] at this
    obtain rfl : run = other :=
      h.unique hpass (List.getElem?_eq_getElem hother) hopen hopen'
    rw [hpasses, List.getElem?_set_self hlt] at hpass''
    cases hpass''
    exact hrestored e hended

/-- A caller that asks joins the unfinished pass, or starts the only unfinished one. -/
theorem Coherent.ask (h : s.Coherent) {token : Option Nat}
    (hflight : s'.flight = (s.flight.register () true).flight)
    (hpasses : s'.passes = if (s.flight.register () true).started then s.passes ++ [⟨token, false, .registered⟩]
      else s.passes)
    (htable : s'.table = s.table) : s'.Coherent := by
  rcases s.flight.register_cases () true with
    ⟨-, -, hjoined, hstates, hcurrent⟩ | ⟨hfinished, -, hstarted, hstates, hcurrent⟩
  · rw [hjoined] at hpasses
    refine h.frame hpasses ?_ fun hstale => htable ▸ hstale
    rw [hflight]
    exact ⟨hstates, fun k => .inl (hcurrent k)⟩
  · rw [hstarted, if_pos rfl] at hpasses
    have hlength : s'.flight.runs.length = s.flight.runs.length + 1 := by
      rw [hflight, ← Flight.length_states, hstates, List.length_append, Flight.length_states]
      rfl
    have hold (run : Nat) (hrun : run < s.passes.length) :
        s'.flight.outcome? run = s.flight.outcome? run := by
      rw [hflight, Flight.outcome?_eq, Flight.outcome?_eq, hstates, List.getElem?_append_left]
      rwa [Flight.length_states, ← h.length]
    have hnew : s'.flight.outcome? s.passes.length = none := by
      rw [hflight, Flight.outcome?_eq, hstates, h.length, ← Flight.length_states,
        List.getElem?_concat_length]
      rfl
    have hregistered : s'.flight.current? () = some s.passes.length := by
      rw [hflight, hcurrent, if_pos rfl, h.length]
    -- Whatever was registered has finished, so no pass was unfinished before.
    have hnone (run : Nat) (hrun : run < s.passes.length) : s.flight.outcome? run ≠ none := by
      intro hopen
      have hsome := hfinished run (h.registered run hrun hopen)
      rw [hopen] at hsome
      cases hsome
    have hcases (run : Nat) (pass : Pass) (hpass : s'.passes[run]? = some pass) :
        (run < s.passes.length ∧ s.passes[run]? = some pass) ∨
          run = s.passes.length ∧ pass = ⟨token, false, .registered⟩ := by
      rw [hpasses] at hpass
      by_cases hrun : run < s.passes.length
      · rw [List.getElem?_append_left hrun] at hpass
        exact .inl ⟨hrun, hpass⟩
      · rw [List.getElem?_append_right (Nat.le_of_not_lt hrun), List.getElem?_singleton] at hpass
        obtain ⟨hzero, hpass⟩ := Option.ite_none_right_eq_some.mp hpass
        exact .inr ⟨by omega, (Option.some.inj hpass).symm⟩
    refine ⟨?_, fun run hrun hopen => ?_, fun run hrun => ?_, fun run pass outcome hpass houtcome => ?_,
      fun run pass e hpass hstage hopen => ?_⟩
    · rw [hpasses, List.length_append, hlength, h.length]
      rfl
    · rw [hpasses, List.length_append, List.length_singleton] at hrun
      by_cases hlt : run < s.passes.length
      · rw [hold run hlt] at hopen
        exact absurd hopen (hnone run hlt)
      · rw [hregistered]
        congr 1
        omega
    · rw [hregistered] at hrun
      cases hrun
      rw [hpasses, List.length_append]
      exact Nat.lt_succ_self _
    · obtain ⟨hlt, hpass⟩ | ⟨rfl, -⟩ := hcases run pass hpass
      · rw [hold run hlt] at houtcome
        exact h.told run pass outcome hpass houtcome
      · rw [hnew] at houtcome
        cases houtcome
    · obtain ⟨hlt, hpass⟩ | ⟨-, rfl⟩ := hcases run pass hpass
      · rw [hold run hlt] at hopen
        exact absurd hopen (hnone run hlt)
      · cases hstage

/-- A pass tells its outcome. -/
theorem Coherent.settle (h : s.Coherent) {outcome : Except Error Snapshot}
    (hpass : s.passes[run]? = some pass) (hstage : pass.stage = .ended outcome) :
    ({ s with flight := s.flight.settle run outcome } : SharedTable).Coherent := by
  have hlt := (List.getElem?_eq_some_iff.mp hpass).1
  -- Should it have told an outcome before, it was this one.
  have hself : (s.flight.settle run outcome).outcome? run = some outcome := by
    rw [Flight.outcome?_settle_self _ _ (h.length ▸ hlt)]
    cases hlast : s.flight.outcome? run with
    | none => rfl
    | some last =>
      have := h.told run pass last hpass hlast
      rw [hstage] at this
      cases this
      rfl
  have hopen {other : Nat} (hnone : (s.flight.settle run outcome).outcome? other = none) :
      s.flight.outcome? other = none := by
    have hne : run ≠ other := by
      rintro rfl
      rw [hself] at hnone
      cases hnone
    rwa [Flight.outcome?_settle_ne _ _ hne] at hnone
  refine ⟨?_, fun other hother hnone => h.registered other hother (hopen hnone), h.known,
    fun other pass' last hpass' hlast => ?_,
    fun other pass' e hpass' hended hnone => h.restored other pass' e hpass' hended (hopen hnone)⟩
  · show s.passes.length = (s.flight.settle run outcome).runs.length
    rw [← Flight.length_states, Flight.states_settle, List.length_modify, Flight.length_states, h.length]
  · by_cases hne : run = other
    · subst hne
      rw [hself] at hlast
      rw [hpass] at hpass'
      cases hpass'
      cases hlast
      exact hstage
    · rw [Flight.outcome?_settle_ne _ _ hne] at hlast
      exact h.told other pass' last hpass' hlast

/-- What a caller that goes away leaves is what there was, less the caller. -/
theorem forgets_leaving (flight : Flight Unit Snapshot) (progress : Progress) :
    Flight.Forgets flight (leaving flight progress) := by
  cases progress with
  | waiting run started => exact Flight.forgets_leave flight run
  | _ => exact .refl flight

/-- Nothing that can happen makes passes, register and flag disagree. -/
theorem Coherent.step {event : Event} (h : s.Coherent) (hstep : s.step event = some s') : s'.Coherent := by
  cases move_of_step hstep with
  | cancel token => exact h.frame rfl (.refl _) id
  | markStale => exact h.frame rfl (.refl _) fun _ => rfl
  | setInterval seconds => exact h.frame rfl (.refl _) id
  | takeError => exact h.frame rfl (.refl _) id
  | refresh token => exact h.frame rfl (.refl _) id
  | scan => exact h.frame rfl (.refl _) id
  | look call c hcall hprogress => exact h.frame rfl (.refl _) id
  | time call now c hcall hprogress => exact h.frame rfl (.refl _) id
  | ask call c hcall hprogress => exact h.ask rfl rfl rfl
  | collect call run started c outcome flight hcall hprogress hfinish =>
    exact h.frame rfl (Flight.finish_eq_some hfinish).1 id
  | giveUp call run c hcall hprogress hcancelled => exact h.frame rfl (Flight.forgets_leave _ _) id
  | defer call failure c hcall hprogress => exact h.frame rfl (.refl _) id
  | read call failure c hcall hprogress => exact h.frame rfl (.refl _) id
  | drop call c hcall => exact h.frame rfl (forgets_leaving _ _) id
  | begin run pass hpass hstage => exact h.setPass hpass (by simp [hstage]) rfl rfl nofun
  | build run outcome pass hpass hstage => exact h.setPass hpass (by simp [hstage]) rfl rfl nofun
  | callOff run candidate pass hpass hstage hcancelled =>
    refine h.setPass hpass (by simp [hstage]) rfl rfl fun e he => ?_
    cases he
    cases hstale : pass.wasStale with
    | false => exact .inr ⟨rfl, hstale⟩
    | true => exact .inl (Bool.or_true _)
  -- Any error but that of a pass that was called off sets the flag.
  | fail run e pass hpass hstage =>
    refine h.setPass hpass (by simp [hstage]) rfl rfl fun e' he' => ?_
    cases he'
    by_cases hcancelled : e.root = .cancelled
    · cases hstale : pass.wasStale with
      | false => exact .inr ⟨hcancelled, hstale⟩
      | true => exact .inl (by simp [LiveTable.restoreStale, LiveTable.asksAgain])
    · exact .inl (by simp [LiveTable.restoreStale, LiveTable.asksAgain, hcancelled])
  | succeed run candidate pass hpass hstage hcancelled =>
    exact h.setPass hpass (by simp [hstage]) rfl rfl nofun
  | publish run candidate pass hpass hstage => exact h.setPass hpass (by simp [hstage]) rfl rfl nofun
  | stamp run now snapshot pass hpass hstage => exact h.setPass hpass (by simp [hstage]) rfl rfl nofun
  | settle run outcome pass hpass hstage => exact h.settle hpass hstage
  | forget run => exact h.frame rfl (Flight.forgets_driverDone _ _) id

/-! ### Events one after another -/

/-- Events one after another are those before and those after some time. -/
theorem steps_append (s : SharedTable) (before after : List Event) :
    s.steps (before ++ after) = (s.steps before).bind fun x => x.steps after :=
  List.foldlM_append ..

/-- What every event keeps, all events together keep. -/
theorem keeps_of_steps {R : List Event → List Event → SharedTable → Prop}
    (hnext : ∀ {events since s event s'}, R events since s → s.step event = some s' →
      R (events ++ [event]) (since ++ [event]) s')
    {events since more : List Event} (h : R events since s) (hsteps : s.steps more = some s') :
    R (events ++ more) (since ++ more) s' := by
  induction more generalizing events since s with
  | nil =>
    cases hsteps
    rw [List.append_nil, List.append_nil]
    exact h
  | cons event rest ih =>
    obtain ⟨next, hstep, hrest⟩ := Option.bind_eq_some_iff.mp hsteps
    rw [List.append_cons, List.append_cons since]
    exact ih (hnext h hstep) hrest

/-- What every event keeps of a table, all events together keep. -/
theorem invariant_of_steps {P : SharedTable → Prop}
    (hnext : ∀ {s event s'}, P s → s.step event = some s' → P s') {more : List Event} (h : P s)
    (hsteps : s.steps more = some s') : P s' :=
  @keeps_of_steps s s' (fun _ _ x => P x) hnext [] [] more h hsteps

/-- Nothing that can happen one after another makes passes, register and flag disagree. -/
theorem Coherent.steps {events : List Event} (h : s.Coherent) (hsteps : s.steps events = some s') :
    s'.Coherent :=
  invariant_of_steps Coherent.step h hsteps

/-! ### One pass, one outcome, one table -/

/-- What an event can make of a pass. -/
inductive Pass.Next (s : SharedTable) (run : Nat) (pass : Pass) : Event → Pass → Prop
  | begin (hstage : pass.stage = .registered) :
    Next s run pass (.begin run) ⟨pass.token, s.table.stale, .building⟩
  | build (outcome : Except Error Snapshot) (hstage : pass.stage = .building) :
    Next s run pass (.build run outcome) (pass.to (.built outcome))
  | callOff (candidate : Snapshot) (hstage : pass.stage = .built (.ok candidate))
    (hcancelled : s.isCancelled pass.token = true) :
    Next s run pass (.check run) (pass.to (.ended (.error .cancelled)))
  | fail (e : Error) (hstage : pass.stage = .built (.error e)) :
    Next s run pass (.check run) (pass.to (.ended (.error e)))
  | succeed (candidate : Snapshot) (hstage : pass.stage = .built (.ok candidate))
    (hcancelled : s.isCancelled pass.token = false) :
    Next s run pass (.check run) (pass.to (.publishing candidate))
  | publish (candidate : Snapshot) (hstage : pass.stage = .publishing candidate) :
    Next s run pass (.publish run) (pass.to (.published (s.table.publish candidate).current))
  | stamp (now : Nat) (snapshot : Snapshot) (hstage : pass.stage = .published snapshot) :
    Next s run pass (.stamp run now) (pass.to (.ended (.ok snapshot)))

/-- A pass is as it was, or it is new, or the event was one of its own. -/
theorem pass_of_step {event : Event} (hstep : s.step event = some s')
    (hpass' : s'.passes[run]? = some pass') :
    s.passes[run]? = some pass' ∨ (s.passes[run]? = none ∧ pass'.stage = .registered) ∨
      ∃ pass, s.passes[run]? = some pass ∧ pass.Next s run event pass' := by
  -- A pass that was written over is the one of the event.
  have hset {other : Nat} {old new : Pass} (hold : s.passes[other]? = some old)
      (hnext : old.Next s other event new) (h : (s.passes.set other new)[run]? = some pass') :
      s.passes[run]? = some pass' ∨ (s.passes[run]? = none ∧ pass'.stage = .registered) ∨
        ∃ pass, s.passes[run]? = some pass ∧ pass.Next s run event pass' := by
    by_cases hrun : other = run
    · subst hrun
      rw [List.getElem?_set_self (List.getElem?_eq_some_iff.mp hold).1] at h
      cases h
      exact .inr (.inr ⟨old, hold, hnext⟩)
    · rw [List.getElem?_set_ne hrun] at h
      exact .inl h
  cases move_of_step hstep with
  | ask call c hcall hprogress =>
    change (if (s.flight.register () true).started = true then s.passes ++ [_] else s.passes)[run]?
      = some pass' at hpass'
    split at hpass'
    · rw [List.getElem?_append] at hpass'
      split at hpass'
      · exact .inl hpass'
      · next hlt =>
        rw [List.getElem?_singleton] at hpass'
        obtain ⟨-, hpass'⟩ := Option.ite_none_right_eq_some.mp hpass'
        cases hpass'
        exact .inr (.inl ⟨List.getElem?_eq_none (Nat.le_of_not_lt hlt), rfl⟩)
    · exact .inl hpass'
  | begin other pass hpass hstage => exact hset hpass (.begin hstage) hpass'
  | build other outcome pass hpass hstage => exact hset hpass (.build outcome hstage) hpass'
  | callOff other candidate pass hpass hstage hcancelled =>
    exact hset hpass (.callOff candidate hstage hcancelled) hpass'
  | fail other e pass hpass hstage => exact hset hpass (.fail e hstage) hpass'
  | succeed other candidate pass hpass hstage hcancelled =>
    exact hset hpass (.succeed candidate hstage hcancelled) hpass'
  | publish other candidate pass hpass hstage => exact hset hpass (.publish candidate hstage) hpass'
  | stamp other now snapshot pass hpass hstage => exact hset hpass (.stamp now snapshot hstage) hpass'
  | _ => exact .inl hpass'

/-- A pass does not go away. -/
theorem length_passes_of_step {event : Event} (hstep : s.step event = some s') :
    s.passes.length ≤ s'.passes.length := by
  cases move_of_step hstep with
  | ask call c hcall hprogress =>
    show _ ≤ (if _ then s.passes ++ [_] else s.passes).length
    split <;> simp
  | _ => first | exact Nat.le_refl _ | exact Nat.le_of_eq (List.length_set ..).symm

/-- A pass is there after an event as it was, unless the event was one of its own. -/
theorem next_of_step {event : Event} (hstep : s.step event = some s') (hpass : s.passes[run]? = some pass) :
    ∃ pass', s'.passes[run]? = some pass' ∧ (pass' = pass ∨ pass.Next s run event pass') := by
  have hlt := Nat.lt_of_lt_of_le (List.getElem?_eq_some_iff.mp hpass).1 (length_passes_of_step hstep)
  have hpass' := List.getElem?_eq_getElem hlt
  refine ⟨_, hpass', ?_⟩
  rcases pass_of_step hstep hpass' with hsame | ⟨hnone, -⟩ | ⟨before, hbefore, hnext⟩
  · rw [hpass] at hsame
    exact .inl (Option.some.inj hsame).symm
  · rw [hpass] at hnone
    cases hnone
  · rw [hpass] at hbefore
    cases hbefore
    exact .inr hnext

/-- What an event can make of a call. -/
inductive Call.Next (s : SharedTable) (call : Nat) (c : Call) : Event → Progress → Prop
  | look (hprogress : c.progress = .looking) :
    Next s call c (.look call) (if s.table.stale then .asking else .timing)
  | time (now : Nat) (hprogress : c.progress = .timing) :
    Next s call c (.time call now) (if s.table.isOverdue now then .asking else .reading none)
  | ask (hprogress : c.progress = .asking) :
    Next s call c (.ask call)
      (.waiting (s.flight.register () true).run (s.flight.register () true).started)
  | collect (run : Nat) (started : Bool) (outcome : Except Error Snapshot) (flight : Flight Unit Snapshot)
    (hprogress : c.progress = .waiting run started)
    (hfinish : s.flight.finish run = some (outcome, flight)) :
    Next s call c (.collect call) (next c.scans (s.isCancelled c.token) outcome)
  | giveUp (run : Nat) (hprogress : c.progress = .waiting run false)
    (hcancelled : s.isCancelled c.token = true) :
    Next s call c (.giveUp call) (.answered (.error .cancelled))
  | defer (failure : Error) (hprogress : c.progress = .deferring failure) :
    Next s call c (.defer call) (.reading (some failure))
  | read (failure : Option Error) (hprogress : c.progress = .reading failure) :
    Next s call c (.read call) (.scanned s.table.current failure)
  | drop : Next s call c (.drop call) .gone

/-- A call is there after an event as it was, unless the event was one of its own. -/
theorem call_of_step {event : Event} {call : Nat} {c : Call} (hstep : s.step event = some s')
    (hcall : s.calls[call]? = some c) :
    (s'.calls[call]? = some c ∧ event ≠ .ask call) ∨
      ∃ progress, s'.calls[call]? = some (c.to progress) ∧ c.Next s call event progress := by
  -- A call that was written over is the one of the event.
  have hset {other : Nat} {c' : Call} {progress : Progress} (hcall' : s.calls[other]? = some c')
      (hnext : c'.Next s other event progress) (hask : other ≠ call → event ≠ .ask call) :
      ((s.calls.set other (c'.to progress))[call]? = some c ∧ event ≠ .ask call) ∨
        ∃ progress', (s.calls.set other (c'.to progress))[call]? = some (c.to progress') ∧
          c.Next s call event progress' := by
    by_cases hsame : other = call
    · subst hsame
      rw [hcall] at hcall'
      cases hcall'
      exact .inr ⟨progress, List.getElem?_set_self (List.getElem?_eq_some_iff.mp hcall).1, hnext⟩
    · rw [List.getElem?_set_ne hsame]
      exact .inl ⟨hcall, hask hsame⟩
  have happend (new : Call) : (s.calls ++ [new])[call]? = some c := by
    rw [List.getElem?_append_left (List.getElem?_eq_some_iff.mp hcall).1]
    exact hcall
  cases move_of_step hstep with
  | refresh token => exact .inl ⟨happend _, nofun⟩
  | scan => exact .inl ⟨happend _, nofun⟩
  | look other c' hcall' hprogress => exact hset hcall' (.look hprogress) nofun
  | time other now c' hcall' hprogress => exact hset hcall' (.time now hprogress) nofun
  | ask other c' hcall' hprogress =>
    exact hset hcall' (.ask hprogress) fun hne hask => hne (Event.ask.inj hask)
  | collect other run started c' outcome flight hcall' hprogress hfinish =>
    exact hset hcall' (.collect run started outcome flight hprogress hfinish) nofun
  | giveUp other run c' hcall' hprogress hcancelled =>
    exact hset hcall' (.giveUp run hprogress hcancelled) nofun
  | defer other failure c' hcall' hprogress => exact hset hcall' (.defer failure hprogress) nofun
  | read other failure c' hcall' hprogress => exact hset hcall' (.read failure hprogress) nofun
  | drop other c' hcall' => exact hset hcall' .drop nofun
  | _ => exact .inl ⟨hcall, nofun⟩

/-- An outcome stays. -/
theorem outcome?_of_step {event : Event} (hstep : s.step event = some s')
    {outcome : Except Error Snapshot} (houtcome : s.flight.outcome? run = some outcome) :
    s'.flight.outcome? run = some outcome := by
  have hlt : run < s.flight.runs.length := by
    obtain ⟨r, hr, -⟩ := Option.bind_eq_some_iff.mp houtcome
    exact (List.getElem?_eq_some_iff.mp hr).1
  have hforgets {flight : Flight Unit Snapshot} (hflight : Flight.Forgets s.flight flight) :
      flight.outcome? run = some outcome := (hflight.outcome? run).trans houtcome
  cases move_of_step hstep with
  | ask call c hcall hprogress =>
    show (s.flight.register () true).flight.outcome? run = some outcome
    rcases s.flight.register_cases () true with ⟨-, -, -, hstates, -⟩ | ⟨-, -, -, hstates, -⟩
    · rw [Flight.outcome?_eq, hstates, ← Flight.outcome?_eq, houtcome]
    · rw [Flight.outcome?_eq, hstates, List.getElem?_append_left (by rwa [Flight.length_states]),
        ← Flight.outcome?_eq, houtcome]
  | collect call run started c given flight hcall hprogress hfinish =>
    exact hforgets (Flight.finish_eq_some hfinish).1
  | giveUp call other c hcall hprogress hcancelled => exact hforgets (Flight.forgets_leave _ _)
  | drop call c hcall => exact hforgets (forgets_leaving _ _)
  | forget other => exact hforgets (Flight.forgets_driverDone _ _)
  | settle other told pass hpass hstage =>
    show (s.flight.settle other told).outcome? run = some outcome
    by_cases hrun : other = run
    · subst hrun
      rw [Flight.outcome?_settle_self _ _ hlt, houtcome]
      rfl
    · rw [Flight.outcome?_settle_ne _ _ hrun, houtcome]
  | _ => exact houtcome

/-- Only the beginning of a pass clears the flag. -/
theorem stale_of_step {event : Event} (hstep : s.step event = some s') (hstale : s.table.stale = true) :
    s'.table.stale = true ∨ ∃ run pass, event = .begin run ∧ s.passes[run]? = some pass ∧
      pass.stage = .registered := by
  cases move_of_step hstep with
  | markStale => exact .inl rfl
  | begin run pass hpass hstage => exact .inr ⟨run, pass, rfl, hpass, hstage⟩
  | callOff | fail => exact .inl (by simp [LiveTable.restoreStale, hstale])
  | publish run candidate pass hpass hstage =>
    refine .inl ?_
    show (s.table.publish candidate).stale = true
    unfold LiveTable.publish
    split <;> exact hstale
  | _ => exact .inl hstale

/-- Only a pass that has succeeded changes the snapshot or the time of the last refresh. -/
theorem table_of_step {event : Event} (hstep : s.step event = some s') :
    (s'.table.current = s.table.current ∧ s'.table.refreshedAt = s.table.refreshedAt) ∨
      ∃ run pass, s.passes[run]? = some pass ∧
        ((event = .publish run ∧ ∃ candidate, pass.stage = .publishing candidate) ∨
          ∃ now snapshot, event = .stamp run now ∧ pass.stage = .published snapshot) := by
  cases move_of_step hstep with
  | publish run candidate pass hpass hstage =>
    exact .inr ⟨run, pass, hpass, .inl ⟨rfl, candidate, hstage⟩⟩
  | stamp run now snapshot pass hpass hstage =>
    exact .inr ⟨run, pass, hpass, .inr ⟨now, snapshot, rfl, hstage⟩⟩
  | _ => exact .inl ⟨rfl, rfl⟩

/-- Whatever has happened to a table, its passes are as the register and the flag say. -/
theorem coherent_of_steps {t : LiveTable} {events : List Event}
    (h : (ofTable t).steps events = some s) : s.Coherent :=
  (coherent_ofTable t).steps h

end SourceTables.SharedTable

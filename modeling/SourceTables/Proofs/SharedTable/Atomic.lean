import SourceTables.Proofs.SharedTable.Moves

/-!
# `SourceTables.Proofs.SharedTable.Atomic`: passes are atomic and lose no signal

The theorems:

* `Running.next`: a pass that runs goes on to run until it tells its outcome.
* `unpublished_of_steps`: as long as a pass has published nothing, the table shows what it showed when
  the pass began.
* `stale_of_steps`: a signal that comes while a pass runs is there when the pass ends.
* `answers_of_steps`: only callers whose own tokens were cancelled are told so.
* `atomic_of_steps`: all this together, after whatever has happened.
-/

set_option autoImplicit false

namespace SourceTables.SharedTable

/-- The failure that a caller was given. -/
def Progress.failure? : Progress → Option Error
  | .deferring e | .answered (.error e) => some e
  | .reading failure | .scanned _ failure => failure
  | _ => none

/-- Whether a pass was not called off and has a candidate that it publishes. -/
def Pass.Succeeds (pass : Pass) : Prop :=
  (∃ candidate, pass.stage = .publishing candidate) ∨ ∃ snapshot, pass.stage = .published snapshot

/-- Whether a pass ends with an outcome, which makes one state of another. -/
def Ends (s : SharedTable) (run : Nat) (outcome : Except Error Snapshot) (s' : SharedTable) : Prop :=
  (∃ pass, s.passes[run]? = some pass ∧ pass.stage = .ended outcome) ∧ s.flight.outcome? run = none ∧
    s.step (.settle run) = some s'

/-- Whether passes are atomic and lose no signal, from a state on. -/
structure Atomic (s : SharedTable) : Prop where
  /-- At most one pass runs. -/
  alone : ∀ run run', s.Running run → s.Running run' → run = run'
  /-- The snapshot and the time of the last refresh change when a pass succeeds, and not otherwise. -/
  succeeds : ∀ event s', s.step event = some s' →
    s'.table.current ≠ s.table.current ∨ s'.table.refreshedAt ≠ s.table.refreshedAt →
      ∃ run pass, s.passes[run]? = some pass ∧ pass.Succeeds ∧
        (event = .publish run ∨ ∃ now, event = .stamp run now)
  /-- A pass that ends with an error leaves both as they were when it began. -/
  unchanged : ∀ run s₁ events s₂ e s₃, s.step (.begin run) = some s₁ → s₁.steps events = some s₂ →
    s₂.Ends run (.error e) s₃ →
      s₃.table.current = s.table.current ∧ s₃.table.refreshedAt = s.table.refreshedAt
  /-- A signal that comes while a pass runs is there when the pass ends, whatever its outcome. -/
  signalled : ∀ run s₁ events s₂ outcome s₃, s.Running run → s.step .markStale = some s₁ →
    s₁.steps events = some s₂ → s₂.Ends run outcome s₃ → s₃.table.stale = true
  /-- After a pass that has failed a refresh is due. -/
  failed : ∀ run e s', s.Ends run (.error e) s' → e.root ≠ .cancelled →
    ∀ now, s'.table.needsRefresh now = true
  /-- A pass that was called off sets the flag again if it was set when the pass began. -/
  calledOff : ∀ run s₁ events s₂ e s₃, s.table.stale = true → s.step (.begin run) = some s₁ →
    s₁.steps events = some s₂ → s₂.Ends run (.error e) s₃ → e.root = .cancelled →
      s₃.table.stale = true
  /-- Only a caller whose own token was cancelled is told that the refresh was cancelled. -/
  answered : ∀ (call : Nat) (c : Call) (e : Error), s.calls[call]? = some c →
    c.progress.failure? = some e → e.root = .cancelled → s.isCancelled c.token = true

variable {s s' s₁ s₂ : SharedTable} {run : Nat} {pass pass' : Pass} {event : Event}

/-! ### One pass -/

/-- What comes next of a pass keeps its token and, once it has begun, what it found. -/
theorem Pass.Next.begun (h : pass.Next s run event pass') :
    pass'.stage ≠ .registered ∧ (pass.stage ≠ .registered → pass'.wasStale = pass.wasStale) := by
  cases h with
  | begin hstage => exact ⟨nofun, fun hne => absurd hstage hne⟩
  | build | callOff | fail | succeed | publish | stamp => exact ⟨nofun, fun _ => rfl⟩

/-- A pass that runs goes on to run until it tells its outcome. -/
theorem Running.next (h : s.Running run) (hstep : s.step event = some s')
    (hopen : s'.flight.outcome? run = none) : s'.Running run := by
  obtain ⟨pass, hpass, hbegun, -⟩ := h
  obtain ⟨pass', hpass', hnext⟩ := next_of_step hstep hpass
  refine ⟨pass', hpass', ?_, hopen⟩
  rcases hnext with rfl | hnext
  · exact hbegun
  · exact hnext.begun.1

/-- A pass that has an outcome does not run again. -/
theorem outcome?_eq_none_of_step (hstep : s.step event = some s') (hopen : s'.flight.outcome? run = none) :
    s.flight.outcome? run = none := by
  cases houtcome : s.flight.outcome? run with
  | none => rfl
  | some outcome =>
    rw [outcome?_of_step hstep houtcome] at hopen
    cases hopen

theorem outcome?_eq_none_of_steps {events : List Event} (hsteps : s.steps events = some s')
    (hopen : s'.flight.outcome? run = none) : s.flight.outcome? run = none := by
  induction events generalizing s with
  | nil =>
    cases hsteps
    exact hopen
  | cons event rest ih =>
    obtain ⟨next, hnext, hrest⟩ := Option.bind_eq_some_iff.mp hsteps
    exact outcome?_eq_none_of_step hnext (ih hrest)

/-- What every event keeps while a pass runs holds at its end. -/
theorem Running.keeps {P : SharedTable → Prop} {events : List Event} (h : s.Coherent)
    (hrun : s.Running run) (hsteps : s.steps events = some s') (hopen : s'.flight.outcome? run = none)
    (hkeeps : ∀ x event x', x.Coherent → x.Running run → x'.Running run → x.step event = some x' →
      P x → P x') (hP : P s) : s'.Coherent ∧ s'.Running run ∧ P s' := by
  induction events generalizing s with
  | nil =>
    cases hsteps
    exact ⟨h, hrun, hP⟩
  | cons event rest ih =>
    obtain ⟨next, hnext, hrest⟩ := Option.bind_eq_some_iff.mp hsteps
    -- The pass has no outcome at the end, so it has none in between.
    have hrun' := hrun.next hnext (outcome?_eq_none_of_steps hrest hopen)
    exact ih (h.step hnext) hrun' hrest (hkeeps s event next h hrun hrun' hnext hP)

/-- Two passes that run are the same. -/
theorem Coherent.alone {run' : Nat} (h : s.Coherent) (hrun : s.Running run) (hrun' : s.Running run') :
    run = run' := by
  obtain ⟨pass, hpass, -, hopen⟩ := hrun
  obtain ⟨pass', hpass', -, hopen'⟩ := hrun'
  exact h.unique hpass hpass' hopen hopen'

/-- While a pass runs, no other has anything left to do. -/
theorem Coherent.eq_of_running {other : Nat} (h : s.Coherent) (hrun : s.Running run)
    (hpass : s.passes[other]? = some pass) (hstage : ∀ outcome, pass.stage ≠ .ended outcome) :
    run = other := by
  obtain ⟨pass', hpass', -, hopen'⟩ := hrun
  exact h.unique hpass' hpass hopen' (h.outcome?_eq_none hpass hstage)

/-- No pass begins while one runs. -/
theorem Coherent.not_begin {other : Nat} (h : s.Coherent) (hrun : s.Running run)
    (hpass : s.passes[other]? = some pass) : pass.stage ≠ .registered := by
  intro hstage
  obtain rfl := h.eq_of_running hrun hpass (by simp [hstage])
  obtain ⟨pass', hpass', hbegun, -⟩ := hrun
  rw [hpass] at hpass'
  cases hpass'
  exact hbegun hstage

/-! ### The flag -/

/-- Nothing clears the flag while a pass runs. -/
theorem stale_of_running (h : s.Coherent) (hrun : s.Running run) (hstep : s.step event = some s')
    (hstale : s.table.stale = true) : s'.table.stale = true := by
  rcases stale_of_step hstep hstale with hstale | ⟨other, pass, -, hpass, hstage⟩
  · exact hstale
  · exact absurd hstage (h.not_begin hrun hpass)

/-- A signal that comes while a pass runs is there when the pass ends. -/
theorem stale_of_steps {events : List Event} (h : s.Coherent) (hrun : s.Running run)
    (hsteps : s.steps events = some s') (hopen : s'.flight.outcome? run = none)
    (hstale : s.table.stale = true) : s'.table.stale = true :=
  (hrun.keeps (P := fun x => x.table.stale = true) h hsteps hopen
    (fun _ _ _ hx hrun _ hstep hstale => stale_of_running hx hrun hstep hstale) hstale).2.2

/-- A pass that begins runs, has found the flag as it was, and leaves the snapshot as it is. -/
theorem running_of_begin (h : s.Coherent) (hstep : s.step (.begin run) = some s') :
    s'.Running run ∧ (∃ pass, s'.passes[run]? = some pass ∧ pass.wasStale = s.table.stale) ∧
      s'.table.current = s.table.current ∧ s'.table.refreshedAt = s.table.refreshedAt := by
  cases move_of_step hstep with
  | begin _ pass hpass hstage =>
    have hlt := (List.getElem?_eq_some_iff.mp hpass).1
    have hset : (s.passes.set run ⟨pass.token, s.table.stale, .building⟩)[run]?
        = some ⟨pass.token, s.table.stale, .building⟩ := List.getElem?_set_self hlt
    have hopen := h.outcome?_eq_none hpass (by simp [hstage])
    exact ⟨⟨_, hset, nofun, hopen⟩, ⟨_, hset, rfl⟩, rfl, rfl⟩

/-- A pass remembers what it found. -/
theorem wasStale_of_steps {events : List Event} (h : s.Coherent) (hrun : s.Running run)
    (hpass : s.passes[run]? = some pass) (hsteps : s.steps events = some s')
    (hopen : s'.flight.outcome? run = none) (hpass' : s'.passes[run]? = some pass') :
    pass'.wasStale = pass.wasStale := by
  have hkeeps := hrun.keeps
    (P := fun x => ∀ pass', x.passes[run]? = some pass' → pass'.wasStale = pass.wasStale) h hsteps hopen
    (fun x event x' _ hrun _ hstep hsame pass' hpass' => by
      rcases pass_of_step hstep hpass' with hbefore | ⟨hnone, -⟩ | ⟨before, hbefore, hnext⟩
      · exact hsame pass' hbefore
      · obtain ⟨_, hrun, -⟩ := hrun
        rw [hnone] at hrun
        cases hrun
      · obtain ⟨_, hrun, hbegun, -⟩ := hrun
        rw [hbefore] at hrun
        cases hrun
        rw [hnext.begun.2 hbegun, hsame before hbefore])
    (fun pass' hpass' => by
      rw [hpass] at hpass'
      cases hpass'
      rfl)
  exact hkeeps.2.2 pass' hpass'

/-! ### The snapshot -/

/-- Whether a pass has published nothing. -/
def Pass.Unpublished (pass : Pass) : Prop :=
  ∀ snapshot, pass.stage ≠ .published snapshot ∧ pass.stage ≠ .ended (.ok snapshot)

/-- A pass that has published nothing had published nothing before. -/
theorem Pass.Next.unpublished (h : pass.Next s run event pass') (hunpublished : pass'.Unpublished) :
    pass.Unpublished := by
  intro snapshot
  cases h with
  | begin hstage | build _ hstage | callOff _ hstage | fail _ hstage | succeed _ hstage =>
    simp [hstage]
  | publish candidate hstage => exact absurd rfl (hunpublished _).1
  | stamp now snapshot hstage => exact absurd rfl (hunpublished snapshot).2

/-- A pass that publishes, or has just kept the time, has published something. -/
theorem not_unpublished (hpass' : s'.passes[run]? = some pass')
    (hstep : s.step event = some s') (hevent : event = .publish run ∨ ∃ now, event = .stamp run now) :
    ¬ pass'.Unpublished := by
  intro hunpublished
  have hset {pass next : Pass} (hpass : s.passes[run]? = some pass)
      (h : (s.passes.set run next)[run]? = some pass') : next = pass' := by
    rw [List.getElem?_set_self (List.getElem?_eq_some_iff.mp hpass).1] at h
    exact Option.some.inj h
  obtain rfl | ⟨now, rfl⟩ := hevent
  · cases move_of_step hstep with
    | publish _ candidate pass hpass hstage =>
      obtain rfl := hset hpass hpass'
      exact (hunpublished _).1 rfl
  · cases move_of_step hstep with
    | stamp _ _ snapshot pass hpass hstage =>
      obtain rfl := hset hpass hpass'
      exact (hunpublished snapshot).2 rfl

/-- As long as a pass has published nothing, the table shows what it showed when the pass began. -/
theorem unpublished_of_steps {events : List Event} (h : s.Coherent) (hrun : s.Running run)
    (hsteps : s.steps events = some s') (hopen : s'.flight.outcome? run = none)
    (hpass' : s'.passes[run]? = some pass') (hunpublished : pass'.Unpublished) :
    s'.table.current = s.table.current ∧ s'.table.refreshedAt = s.table.refreshedAt := by
  have hkeeps := hrun.keeps
    (P := fun x => ∀ pass, x.passes[run]? = some pass → pass.Unpublished →
      x.table.current = s.table.current ∧ x.table.refreshedAt = s.table.refreshedAt) h hsteps hopen
    (fun x event x' hx hrun _ hstep hsame pass' hpass' hunpublished => by
      rcases table_of_step hstep with ⟨hcurrent, hrefreshed⟩ | ⟨other, pass, hpass, hevent⟩
      · rw [hcurrent, hrefreshed]
        rcases pass_of_step hstep hpass' with hbefore | ⟨hnone, -⟩ | ⟨before, hbefore, hnext⟩
        · exact hsame pass' hbefore hunpublished
        · obtain ⟨_, hrun, -⟩ := hrun
          rw [hnone] at hrun
          cases hrun
        · exact hsame before hbefore (hnext.unpublished hunpublished)
      · -- Only the pass itself can publish anything, and then it has.
        have hopen : ∀ outcome, pass.stage ≠ .ended outcome := by
          rcases hevent with ⟨-, candidate, hstage⟩ | ⟨now, snapshot, -, hstage⟩ <;> simp [hstage]
        obtain rfl := hx.eq_of_running hrun hpass hopen
        exact absurd hunpublished (not_unpublished hpass' hstep
          (hevent.imp And.left fun ⟨now, _, hnow, _⟩ => ⟨now, hnow⟩)))
    (fun _ _ _ => ⟨rfl, rfl⟩)
  exact hkeeps.2.2 pass' hpass' hunpublished

/-! ### Answers -/

/-- Whether only callers whose own tokens were cancelled are told so. -/
def Answers (s : SharedTable) : Prop :=
  ∀ (call : Nat) (c : Call) (e : Error), s.calls[call]? = some c → c.progress.failure? = some e →
    e.root = .cancelled → s.isCancelled c.token = true

/-- A token stays cancelled. -/
theorem isCancelled_mono (hcancelled : s.cancelled ⊆ s'.cancelled) {token : Option Nat}
    (h : s.isCancelled token = true) : s'.isCancelled token = true := by
  unfold isCancelled at h ⊢
  rw [Option.any_eq_true] at h ⊢
  obtain ⟨n, rfl, hn⟩ := h
  exact ⟨n, rfl, List.contains_iff_mem.mpr (hcancelled (List.contains_iff_mem.mp hn))⟩

/-- What a caller does with an outcome tells it of a cancellation only if its own token was cancelled. -/
theorem failure?_next {scans cancelled : Bool} {outcome : Except Error Snapshot} {e : Error}
    (h : (next scans cancelled outcome).failure? = some e) (hroot : e.root = .cancelled) :
    cancelled = true := by
  unfold next at h
  split at h
  · split at h <;> cases h
  · next e' =>
    split at h
    · cases h
    · next hnot =>
      have heq : e' = e := by
        split at h <;> exact Option.some.inj h
      rw [heq] at hnot
      simpa [hroot] using hnot

/-- A call that has come further keeps the answers right. -/
theorem Answers.setCall (h : s.Answers) {call : Nat} {c : Call}
    (hcalls : s'.calls = s.calls.set call c) (hcancelled : s'.cancelled = s.cancelled)
    (hnew : ∀ e, c.progress.failure? = some e → e.root = .cancelled → s.isCancelled c.token = true) :
    s'.Answers := by
  intro other c' e hcall hfailure hroot
  refine isCancelled_mono (s := s) (fun token htoken => hcancelled ▸ htoken) ?_
  rw [hcalls, List.getElem?_set] at hcall
  split at hcall
  · obtain ⟨-, hcall⟩ := Option.ite_none_right_eq_some.mp hcall
    cases hcall
    exact hnew e hfailure hroot
  · exact h other c' e hcall hfailure hroot

/-- A new call was told nothing. -/
theorem Answers.append (h : s.Answers) {c : Call} (hcalls : s'.calls = s.calls ++ [c])
    (hcancelled : s'.cancelled = s.cancelled) (hnew : c.progress.failure? = none) : s'.Answers := by
  intro other c' e hcall hfailure hroot
  refine isCancelled_mono (s := s) (fun token htoken => hcancelled ▸ htoken) ?_
  rw [hcalls, List.getElem?_append] at hcall
  split at hcall
  · exact h other c' e hcall hfailure hroot
  · rw [List.getElem?_singleton] at hcall
    obtain ⟨-, hcall⟩ := Option.ite_none_right_eq_some.mp hcall
    cases hcall
    rw [hnew] at hfailure
    cases hfailure

/-- Nothing that can happen tells a caller of somebody else's cancellation. -/
theorem Answers.step (h : s.Answers) (hstep : s.step event = some s') : s'.Answers := by
  cases move_of_step hstep with
  | cancel token =>
    intro call c e hcall hfailure hroot
    exact isCancelled_mono (List.subset_cons_self _ _) (h call c e hcall hfailure hroot)
  | refresh token => exact h.append rfl rfl rfl
  | scan => exact h.append rfl rfl rfl
  | look call c hcall hprogress =>
    refine h.setCall rfl rfl fun e hfailure => ?_
    change Progress.failure? (if s.table.stale = true then .asking else .timing) = some e at hfailure
    split at hfailure <;> cases hfailure
  | time call now c hcall hprogress =>
    refine h.setCall rfl rfl fun e hfailure => ?_
    change Progress.failure? (if s.table.isOverdue now = true then .asking else .reading none)
      = some e at hfailure
    split at hfailure <;> cases hfailure
  | ask call c hcall hprogress => exact h.setCall rfl rfl nofun
  | collect call run started c outcome flight hcall hprogress hfinish =>
    exact h.setCall rfl rfl fun e hfailure hroot => failure?_next hfailure hroot
  | giveUp call run c hcall hprogress hcancelled => exact h.setCall rfl rfl fun _ _ _ => hcancelled
  | defer call failure c hcall hprogress =>
    exact h.setCall rfl rfl fun e hfailure => h call c e hcall (by rw [hprogress]; exact hfailure)
  | read call failure c hcall hprogress =>
    exact h.setCall rfl rfl fun e hfailure => h call c e hcall (by rw [hprogress]; exact hfailure)
  | drop call c hcall => exact h.setCall rfl rfl nofun
  | _ => exact h

/-- Only callers whose own tokens were cancelled are told so, whatever has happened. -/
theorem answers_of_steps {t : LiveTable} {events : List Event}
    (h : (ofTable t).steps events = some s) : s.Answers := by
  have hnobody : (ofTable t).Answers := fun call c e hcall => by cases hcall
  exact invariant_of_steps Answers.step hnobody h

/-! ### All together -/

/-- A pass that ends has an outcome from its last stage on, and leaves the table as it is. -/
theorem Ends.table {outcome : Except Error Snapshot} (h : s.Ends run outcome s') :
    s'.table = s.table := by
  cases move_of_step h.2.2 with
  | settle => rfl

/-- An error that ends a pass has set the flag, unless the pass was only called off. -/
theorem Ends.restored (hcoherent : s.Coherent) {e : Error} (h : s.Ends run (.error e) s') :
    s'.table.stale = true ∨ e.root = .cancelled ∧
      ∃ pass, s.passes[run]? = some pass ∧ pass.wasStale = false := by
  obtain ⟨⟨pass, hpass, hstage⟩, hopen, -⟩ := id h
  rw [h.table]
  exact (hcoherent.restored run pass e hpass hstage hopen).imp_right
    fun ⟨hroot, hwas⟩ => ⟨hroot, pass, hpass, hwas⟩

/-- After whatever has happened, passes are atomic and lose no signal. -/
theorem atomic_of_steps {t : LiveTable} {events : List Event}
    (h : (ofTable t).steps events = some s) : s.Atomic := by
  have hcoherent := coherent_of_steps h
  refine ⟨fun run run' => hcoherent.alone, fun event s' hstep hchanged => ?_,
    fun run s₁ events s₂ e s₃ hbegin hsteps hends => ?_,
    fun run s₁ events s₂ outcome s₃ hrun hmark hsteps hends => ?_,
    fun run e s' hends hroot now => ?_,
    fun run s₁ events s₂ e s₃ hstale hbegin hsteps hends hroot => ?_, answers_of_steps h⟩
  · rcases table_of_step hstep with ⟨hcurrent, hrefreshed⟩ | ⟨run, pass, hpass, hevent⟩
    · exact absurd hchanged (by simp [hcurrent, hrefreshed])
    · refine ⟨run, pass, hpass, ?_, ?_⟩
      · exact hevent.imp And.right fun ⟨_, snapshot, _, hstage⟩ => ⟨snapshot, hstage⟩
      · exact hevent.imp And.left fun ⟨now, _, hnow, _⟩ => ⟨now, hnow⟩
  · obtain ⟨hrun, -, hcurrent, hrefreshed⟩ := running_of_begin hcoherent hbegin
    obtain ⟨⟨pass, hpass, hstage⟩, hopen, -⟩ := id hends
    rw [hends.table, ← hcurrent, ← hrefreshed]
    exact unpublished_of_steps (hcoherent.step hbegin) hrun hsteps hopen hpass
      fun snapshot => by simp [hstage]
  · have hmarked : s₁.table.stale = true := by
      cases hmark
      rfl
    have hrun₁ : s₁.Running run := by
      cases hmark
      exact hrun
    rw [hends.table]
    exact stale_of_steps (hcoherent.step hmark) hrun₁ hsteps hends.2.1 hmarked
  · rcases hends.restored hcoherent with hstale | ⟨hcancelled, -⟩
    · exact LiveTable.needsRefresh_of_stale _ now hstale
    · exact absurd hcancelled hroot
  · obtain ⟨hrun, ⟨pass, hpass, hwas⟩, -⟩ := running_of_begin hcoherent hbegin
    have hcoherent₁ := hcoherent.step hbegin
    rcases hends.restored (hcoherent₁.steps hsteps) with hset | ⟨-, pass', hpass', hnot⟩
    · exact hset
    -- A pass that did not set the flag again has found it clear, but it was set.
    · have hsame := wasStale_of_steps hcoherent₁ hrun hpass hsteps hends.2.1 hpass'
      rw [hnot, hwas, hstale] at hsame
      cases hsame

/-- A pass fails, and a signal has come while it ran. -/
theorem atomic_failed :
    let failure : Error := .refreshFailed "t" "no"
    ∃ s, (ofTable default).steps [.refresh none, .ask 0, .begin 0, .markStale, .build 0 (.error failure),
      .check 0, .settle 0] = some s ∧ s.Atomic := by
  intro failure
  obtain ⟨s, hs⟩ := Option.isSome_iff_exists.mp (show ((ofTable default).steps [.refresh none, .ask 0,
    .begin 0, .markStale, .build 0 (.error failure), .check 0, .settle 0]).isSome = true by rfl)
  exact ⟨s, hs, atomic_of_steps hs⟩

end SourceTables.SharedTable

import SourceTables.Flight.Waiters
import SourceTables.Proofs.Flight.Runs

/-!
# `SourceTables.Proofs.Flight.Waiters`: one run is shared exactly

Callers of any number, runs with drivers and without, and every order of their steps.

The theorems:

* `Flight.Coherent`, kept by every operation: an unfinished run is the one that is registered for its key.
* `Flight.Evolves`: what was known of a run stays true, and a run that is off the register stays off.
* `Waiter.Knows.mono`: what a caller knows of its run stays true.
* `shared_of_steps`: at any time there is at most one unfinished run of a key, no step takes it off the
  register, every caller gets the outcome of the one run that it has started or joined, and a run is off
  the register once anybody has cleaned up after it.
-/

set_option autoImplicit false

namespace SourceTables

namespace Flight

variable {κ α : Type}

/-! ### What stays true of runs -/

/-- Whether a run is registered under no key. -/
def Off [DecidableEq κ] (f : Flight κ α) (id : Nat) : Prop := ∀ key, f.current? key ≠ some id

/-- Whether what was known of runs in one flight is still true in another. -/
structure Evolves [DecidableEq κ] (f f' : Flight κ α) : Prop where
  states : ∀ (id : Nat) (key : κ) (outcome : Option (Except Error α)), f.states[id]? = some (key, outcome) →
    ∃ outcome', f'.states[id]? = some (key, outcome') ∧ (outcome.isSome = true → outcome' = outcome)
  off : ∀ id < f.runs.length, f.Off id → f'.Off id

/-- Whether the register and the runs agree. -/
structure Coherent [DecidableEq κ] (f : Flight κ α) : Prop where
  registered : ∀ key id, f.current? key = some id → ∃ outcome, f.states[id]? = some (key, outcome)
  unfinished : ∀ key id, f.states[id]? = some (key, none) → f.current? key = some id

variable [DecidableEq κ] {f f' : Flight κ α} {id : Nat} {key : κ}

/-- An outcome stays. -/
theorem Evolves.outcome? (h : Evolves f f') {outcome : Except Error α}
    (houtcome : f.outcome? id = some outcome) : f'.outcome? id = some outcome := by
  rw [outcome?_eq] at houtcome ⊢
  obtain ⟨⟨key, found⟩, hstate, hfound⟩ := Option.bind_eq_some_iff.mp houtcome
  obtain rfl : found = some outcome := hfound
  obtain ⟨outcome', hstate', hsame⟩ := h.states id key _ hstate
  rw [hstate', hsame rfl]
  rfl

theorem evolves_of_forgets (h : Forgets f f') : Evolves f f' where
  states id key outcome hstate := ⟨outcome, by rw [h.states, hstate], fun _ => rfl⟩
  off id _ hoff key hid := by
    rcases h.current key with hsame | ⟨hnone, -⟩
    · exact hoff key (hsame ▸ hid)
    · rw [hnone] at hid
      cases hid

theorem Coherent.of_forgets (h : f.Coherent) (hforgets : Forgets f f') : f'.Coherent where
  registered key id hid := by
    rw [hforgets.states]
    rcases hforgets.current key with hsame | ⟨hnone, -⟩
    · exact h.registered key id (hsame ▸ hid)
    · rw [hnone] at hid
      cases hid
  unfinished key id hstate := by
    rw [hforgets.states] at hstate
    have hid := h.unfinished key id hstate
    rcases hforgets.current key with hsame | ⟨-, other, hother, hfinished⟩
    · rw [hsame, hid]
    · -- Only a finished run is taken off.
      obtain rfl : id = other := Option.some.inj (hid.symm.trans hother)
      rw [outcome?_eq, hstate] at hfinished
      cases hfinished

/-- A caller that cleans up after its finished run takes off nothing else. -/
theorem forgets_cleanUp (hfinished : (f.outcome? id).isSome = true) : Forgets f (f.cleanUp id) := by
  unfold cleanUp
  split
  · split
    · next hcurrent => exact forgets_deregister hcurrent hfinished
    · exact .refl f
  · exact .refl f

/-- A run is off the register when a caller has cleaned up after it. -/
theorem Coherent.off_cleanUp (h : f.Coherent) : (f.cleanUp id).Off id := by
  intro key hkey
  unfold cleanUp at hkey
  split at hkey
  · next run hrun =>
    have hregistered (hid : f.current? key = some id) : key = run.key := by
      obtain ⟨outcome, hstate⟩ := h.registered key id hid
      rw [states, List.getElem?_map, hrun] at hstate
      exact (congrArg Prod.fst (Option.some.inj hstate)).symm
    split at hkey
    · rw [current?_deregister] at hkey
      split at hkey
      · cases hkey
      · next hne => exact hne (hregistered hkey)
    · next hne => exact hne (hregistered hkey ▸ hkey)
  · next hnone =>
    obtain ⟨outcome, hstate⟩ := h.registered key id hkey
    rw [states, List.getElem?_map, hnone] at hstate
    cases hstate

/-- A finished run is off the register when its driver has gone away. -/
theorem Coherent.off_driverDone (h : f.Coherent) {run : Run κ α} (hrun : f.runs[id]? = some run)
    (hdriven : run.driven = true) (hfinished : run.outcome.isSome = true) : (f.driverDone id).Off id := by
  have hdone : f.driverDone id
      = (f.update id fun run => { run with driven := false }).forgetFinished run.key := by
    unfold driverDone
    rw [hrun]
    simp [hdriven, hfinished]
  have hstates : (f.update id fun run => { run with driven := false }).states = f.states :=
    states_update fun _ => ⟨rfl, rfl⟩
  intro key hkey
  -- If it were still registered, it would have been before, and under its own key.
  have hforgets := (forgets_driverDone f id).current key
  have hcurrent : f.current? key = some id := by
    rcases hforgets with hsame | ⟨hnone, -⟩
    · rw [← hsame, hkey]
    · rw [hnone] at hkey
      cases hkey
  obtain rfl : key = run.key := by
    obtain ⟨outcome, hstate⟩ := h.registered key id hcurrent
    rw [states, List.getElem?_map, hrun] at hstate
    exact (congrArg Prod.fst (Option.some.inj hstate)).symm
  rw [hdone, forgetFinished, current?_update, hcurrent] at hkey
  have hid : ((f.update id fun run => { run with driven := false }).outcome? id).isSome = true := by
    rw [outcome?_eq, hstates, ← outcome?_eq, Flight.outcome?, hrun]
    exact hfinished
  simp only [hid, if_true, current?_deregister] at hkey
  cases hkey

/-- What a caller that asks for a run makes of the register. -/
theorem Coherent.register (h : f.Coherent) (key : κ) (driven : Bool) :
    (f.register key driven).flight.Coherent := by
  rcases f.register_cases key driven with ⟨-, -, -, hstates, hcurrent⟩ | ⟨hdone, -, -, hstates, hcurrent⟩
  · refine ⟨fun k id hid => ?_, fun k id hid => ?_⟩
    · rw [hcurrent] at hid
      rw [hstates]
      exact h.registered k id hid
    · rw [hstates] at hid
      rw [hcurrent]
      exact h.unfinished k id hid
  -- A run was added at the end of the list and registered.
  · refine ⟨fun k id hid => ?_, fun k id hid => ?_⟩
    · rw [hcurrent] at hid
      rw [hstates]
      split at hid
      · next hk =>
        cases hid
        exact ⟨none, by rw [hk, ← length_states, List.getElem?_concat_length]⟩
      · obtain ⟨outcome, hstate⟩ := h.registered k id hid
        refine ⟨outcome, ?_⟩
        rw [List.getElem?_append_left (List.getElem?_eq_some_iff.mp hstate).1, hstate]
    · rw [hstates] at hid
      rw [hcurrent]
      by_cases hlt : id < f.states.length
      · rw [List.getElem?_append_left hlt] at hid
        have hregistered := h.unfinished k id hid
        -- An unfinished run of the key would have been joined.
        have hk : k ≠ key := by
          rintro rfl
          have hfinished := hdone id hregistered
          rw [outcome?_eq, hid] at hfinished
          cases hfinished
        rw [if_neg hk, hregistered]
      · rw [List.getElem?_append_right (Nat.le_of_not_lt hlt), List.getElem?_singleton] at hid
        obtain ⟨hzero, hid⟩ := Option.ite_none_right_eq_some.mp hid
        cases hid
        rw [if_pos rfl]
        rw [← length_states]
        congr 1
        omega

theorem evolves_register (f : Flight κ α) (key : κ) (driven : Bool) :
    Evolves f (f.register key driven).flight := by
  rcases f.register_cases key driven with ⟨-, -, -, hstates, hcurrent⟩ | ⟨-, -, -, hstates, hcurrent⟩
  · refine ⟨fun id k outcome hstate => ⟨outcome, by rw [hstates, hstate], fun _ => rfl⟩, ?_⟩
    intro id _ hoff k hid
    exact hoff k (hcurrent k ▸ hid)
  · constructor
    · intro id k outcome hstate
      refine ⟨outcome, ?_, fun _ => rfl⟩
      rw [hstates, List.getElem?_append_left (List.getElem?_eq_some_iff.mp hstate).1, hstate]
    · intro id hlt hoff k hid
      rw [hcurrent] at hid
      split at hid
      · cases hid
        exact Nat.lt_irrefl _ hlt
      · exact hoff k hid

/-- An unfinished run ends. -/
theorem Coherent.settle (h : f.Coherent) (id : Nat) (outcome : Except Error α) :
    (f.settle id outcome).Coherent where
  registered key i hi := by
    obtain ⟨found, hstate⟩ := h.registered key i hi
    rw [states_settle, List.getElem?_modify, hstate]
    split
    · exact ⟨_, rfl⟩
    · exact ⟨_, rfl⟩
  unfinished key i hstate := by
    rw [states_settle, List.getElem?_modify] at hstate
    refine h.unfinished key i ?_
    obtain ⟨⟨k, found⟩, hfound, hstate⟩ := Option.map_eq_some_iff.mp hstate
    rw [hfound]
    split at hstate
    · cases found <;> cases hstate
    · rw [hstate]

theorem evolves_settle (f : Flight κ α) (id : Nat) (outcome : Except Error α) :
    Evolves f (f.settle id outcome) where
  states i key found hstate := by
    rw [states_settle, List.getElem?_modify, hstate]
    split
    · refine ⟨_, rfl, fun hsome => ?_⟩
      obtain ⟨o, rfl⟩ := Option.isSome_iff_exists.mp hsome
      rfl
    · exact ⟨_, rfl, fun _ => rfl⟩
  off i _ hoff := hoff

/-! ### What callers are told -/

/-- Whether a caller is told what its run has come to: the value, or an error with the same root and the
same text. -/
def Tells (outcome given : Except Error α) : Prop :=
  match outcome, given with
  | .ok value, .ok value' => value' = value
  | .error e, .error e' => e'.root = e.root ∧ e'.message = e.message
  | _, _ => False

omit [DecidableEq κ] in
/-- Every holder of an outcome is told the same. -/
theorem tells_handOut (outcome : Except Error α) (last : Bool) : Tells outcome (handOut outcome last) := by
  cases outcome with
  | ok value => rfl
  | error e => exact ⟨e.root_handOut last, e.message_handOut last⟩

end Flight

namespace Waiters

variable {κ α : Type} [DecidableEq κ]

/-! ### Moves -/

/-- What one event does. -/
inductive Move (s : Waiters κ α) : Event κ α → Waiters κ α → Prop
  | ask (key : κ) (driven : Bool) :
    Move s (.ask key driven) ⟨(s.flight.register key driven).flight, s.callers ++
      [⟨key, (s.flight.register key driven).run, (s.flight.register key driven).started, .waiting⟩]⟩
  | complete (run : Nat) (outcome : Except Error α) (r : Run κ α) (hrun : s.flight.runs[run]? = some r)
    (hopen : r.outcome = none) :
    Move s (.complete run outcome) ⟨s.flight.settle run outcome, s.callers⟩
  | collect (caller : Nat) (w : Waiter κ α) (outcome : Except Error α)
    (hcaller : s.callers[caller]? = some w) (hprogress : w.progress = .waiting)
    (houtcome : s.flight.outcome? w.run = some outcome) :
    Move s (.collect caller) (s.setCaller caller w (.collected outcome))
  | cleanUp (caller : Nat) (w : Waiter κ α) (outcome : Except Error α)
    (hcaller : s.callers[caller]? = some w) (hprogress : w.progress = .collected outcome) :
    Move s (.cleanUp caller)
      ⟨s.flight.cleanUp w.run, (s.setCaller caller w (.cleaned outcome)).callers⟩
  | answer (caller : Nat) (last : Bool) (w : Waiter κ α) (outcome : Except Error α)
    (hcaller : s.callers[caller]? = some w) (hprogress : w.progress = .cleaned outcome) :
    Move s (.answer caller last) ⟨s.flight.leave w.run,
      (s.setCaller caller w (.answered (Flight.handOut outcome last))).callers⟩
  | drop (caller : Nat) (w : Waiter κ α) (hcaller : s.callers[caller]? = some w)
    (hprogress : w.progress = .waiting) :
    Move s (.drop caller) ⟨s.flight.leave w.run, (s.setCaller caller w .gone).callers⟩
  | forget (run : Nat) (r : Run κ α) (hrun : s.flight.runs[run]? = some r) (hdriven : r.driven = true)
    (hfinished : r.outcome.isSome = true) :
    Move s (.forget run) ⟨s.flight.driverDone run, s.callers⟩

variable {s s' : Waiters κ α} {event : Event κ α} {events : List (Event κ α)} {w : Waiter κ α}

/-- Every event makes a move. -/
theorem move_of_step (h : s.step event = some s') : Move s event s' := by
  cases event with
  | ask key driven =>
    cases h
    exact .ask key driven
  | complete run outcome =>
    simp only [step] at h
    split at h
    · next hrun =>
      cases h
      exact .complete run outcome _ hrun rfl
    · cases h
  | collect caller =>
    simp only [step] at h
    split at h
    · next hcaller =>
      obtain ⟨outcome, houtcome, rfl⟩ := Option.map_eq_some_iff.mp h
      exact .collect caller _ outcome hcaller rfl houtcome
    · cases h
  | cleanUp caller =>
    simp only [step] at h
    split at h
    · next hcaller =>
      cases h
      exact .cleanUp caller _ _ hcaller rfl
    · cases h
  | answer caller last =>
    simp only [step] at h
    split at h
    · next hcaller =>
      cases h
      exact .answer caller last _ _ hcaller rfl
    · cases h
  | drop caller =>
    simp only [step] at h
    split at h
    · next hcaller =>
      cases h
      exact .drop caller _ hcaller rfl
    · cases h
  | forget run =>
    simp only [step] at h
    split at h
    · next hrun =>
      cases h
      exact .forget run _ hrun rfl rfl
    · cases h

/-! ### What callers know -/

/-- Whether a caller has taken its run off the register. -/
def Waiter.HasCleanedUp (w : Waiter κ α) : Prop :=
  (∃ outcome, w.progress = .cleaned outcome) ∨ ∃ given, w.progress = .answered given

/-- Whether what a caller has in hand is true of its run. -/
structure Waiter.Knows (w : Waiter κ α) (f : Flight κ α) : Prop where
  asked : ∃ outcome, f.states[w.run]? = some (w.key, outcome)
  holds : ∀ outcome, w.progress = .collected outcome ∨ w.progress = .cleaned outcome →
    f.outcome? w.run = some outcome
  told : ∀ given, w.progress = .answered given →
    ∃ outcome, f.outcome? w.run = some outcome ∧ Flight.Tells outcome given
  off : w.HasCleanedUp → f.Off w.run

theorem Waiter.Knows.lt {f : Flight κ α} (h : w.Knows f) : w.run < f.runs.length := by
  obtain ⟨_, hstate⟩ := h.asked
  rw [← Flight.length_states]
  exact (List.getElem?_eq_some_iff.mp hstate).1

/-- What a caller knows of its run stays true. -/
theorem Waiter.Knows.mono {f f' : Flight κ α} (h : w.Knows f) (hevolves : Flight.Evolves f f') :
    w.Knows f' where
  asked := by
    obtain ⟨outcome, hstate⟩ := h.asked
    obtain ⟨outcome', hstate', -⟩ := hevolves.states _ _ _ hstate
    exact ⟨outcome', hstate'⟩
  holds outcome hprogress := hevolves.outcome? (h.holds outcome hprogress)
  told given hprogress := by
    obtain ⟨outcome, houtcome, htells⟩ := h.told given hprogress
    exact ⟨outcome, hevolves.outcome? houtcome, htells⟩
  off hclean := hevolves.off _ h.lt (h.off hclean)

/-! ### Everything that is known -/

/-- Whether the register, the callers and what has happened agree. -/
structure Agree (events : List (Event κ α)) (s : Waiters κ α) : Prop where
  flight : s.flight.Coherent
  callers : ∀ w ∈ s.callers, w.Knows s.flight
  completed : ∀ run outcome,
    s.flight.outcome? run = some outcome ↔ Event.complete run outcome ∈ events
  forgotten : ∀ run, Event.forget run ∈ events → run < s.flight.runs.length ∧ s.flight.Off run

theorem agree_empty : Agree [] (empty : Waiters κ α) where
  flight := ⟨nofun, fun key id hstate => by cases hstate⟩
  callers := nofun
  completed run outcome := ⟨nofun, nofun⟩
  forgotten := nofun

/-- Events that end no run leave callers and drivers fewer, and finished runs off the register. -/
theorem Agree.frame (h : Agree events s) {flight : Flight κ α} {callers : List (Waiter κ α)}
    (hforgets : Flight.Forgets s.flight flight)
    (hcallers : ∀ w ∈ callers, w ∈ s.callers ∨ w.Knows flight)
    (hevent : ∀ run outcome, event ≠ .complete run outcome)
    (hforgotten : ∀ run, event = .forget run → run < s.flight.runs.length ∧ flight.Off run) :
    Agree (events ++ [event]) ⟨flight, callers⟩ where
  flight := h.flight.of_forgets hforgets
  callers w hw := by
    rcases hcallers w hw with hold | hnew
    · exact (h.callers w hold).mono (Flight.evolves_of_forgets hforgets)
    · exact hnew
  completed run outcome := by
    rw [hforgets.outcome?, h.completed, List.mem_append, List.mem_singleton]
    exact ⟨.inl, fun hmem => hmem.resolve_right fun he => hevent run outcome he.symm⟩
  forgotten run hmem := by
    rw [hforgets.length]
    rw [List.mem_append, List.mem_singleton] at hmem
    rcases hmem with hmem | hmem
    · obtain ⟨hlt, hoff⟩ := h.forgotten run hmem
      exact ⟨hlt, (Flight.evolves_of_forgets hforgets).off run hlt hoff⟩
    · exact hforgotten run hmem.symm

omit [DecidableEq κ] in
/-- Callers after one of them has gone on. -/
theorem mem_setCaller {caller : Nat} {progress : Progress α} {w' : Waiter κ α}
    (h : w' ∈ (s.setCaller caller w progress).callers) :
    w' ∈ s.callers ∨ w' = { w with progress } :=
  List.mem_or_eq_of_mem_set h

/-- A caller that has gone on knows what is true of its run. -/
theorem Agree.advance (h : Agree events s) {flight : Flight κ α} (caller : Nat) {progress : Progress α}
    (hforgets : Flight.Forgets s.flight flight) (hknows : Waiter.Knows { w with progress } flight)
    (hcomplete : ∀ run outcome, event ≠ .complete run outcome) (hforget : ∀ run, event ≠ .forget run) :
    Agree (events ++ [event]) ⟨flight, (s.setCaller caller w progress).callers⟩ := by
  refine h.frame hforgets (fun w' hw' => ?_) hcomplete fun run heq => absurd heq (hforget run)
  obtain hw' | rfl := mem_setCaller hw'
  · exact .inl hw'
  · exact .inr hknows

/-- A caller that has started or joined a run knows no more than that. -/
theorem Agree.ask (h : Agree events s) (key : κ) (driven : Bool) :
    Agree (events ++ [.ask key driven]) ⟨(s.flight.register key driven).flight, s.callers ++
      [⟨key, (s.flight.register key driven).run, (s.flight.register key driven).started, .waiting⟩]⟩ := by
  have hevolves := Flight.evolves_register s.flight key driven
  -- A run that was just started has no outcome, and no other run has changed.
  have houtcome (run : Nat) :
      (s.flight.register key driven).flight.outcome? run = s.flight.outcome? run := by
    rw [Flight.outcome?_eq, Flight.outcome?_eq]
    rcases s.flight.register_cases key driven with ⟨-, -, -, hstates, -⟩ | ⟨-, -, -, hstates, -⟩
    · rw [hstates]
    · rw [hstates, List.getElem?_append]
      split
      · rfl
      · next hlt =>
        rw [List.getElem?_singleton, List.getElem?_eq_none (Nat.le_of_not_lt hlt)]
        split <;> rfl
  have hlength : s.flight.runs.length ≤ (s.flight.register key driven).flight.runs.length := by
    rw [← Flight.length_states, ← Flight.length_states]
    rcases s.flight.register_cases key driven with ⟨-, -, -, hstates, -⟩ | ⟨-, -, -, hstates, -⟩ <;>
      simp [hstates]
  refine ⟨h.flight.register key driven, fun w hw => ?_, fun run outcome => ?_, fun run hmem => ?_⟩
  · rcases List.mem_append.mp hw with hw | hw
    · exact (h.callers w hw).mono hevolves
    · rw [List.mem_singleton.mp hw]
      refine ⟨?_, by simp, by simp, by simp [Waiter.HasCleanedUp]⟩
      rcases s.flight.register_cases key driven with
        ⟨hid, -, -, hstates, -⟩ | ⟨-, hid, -, hstates, -⟩
      · rw [hstates]
        exact h.flight.registered key _ hid
      · rw [hstates]
        exact ⟨none, by rw [hid, ← Flight.length_states, List.getElem?_concat_length]⟩
  · rw [houtcome, h.completed]
    simp
  · obtain ⟨hlt, hoff⟩ := h.forgotten run (by simpa using hmem)
    exact ⟨Nat.lt_of_lt_of_le hlt hlength, hevolves.off run hlt hoff⟩

/-- A run that ends has that outcome from then on. -/
theorem Agree.complete (h : Agree events s) {run : Nat} (outcome : Except Error α) {r : Run κ α}
    (hrun : s.flight.runs[run]? = some r) (hopen : r.outcome = none) :
    Agree (events ++ [.complete run outcome]) { s with flight := s.flight.settle run outcome } := by
  have hevolves := Flight.evolves_settle s.flight run outcome
  have hlt := (List.getElem?_eq_some_iff.mp hrun).1
  have hnone : s.flight.outcome? run = none := by
    rw [Flight.outcome?, hrun]
    exact hopen
  have hlength : (s.flight.settle run outcome).runs.length = s.flight.runs.length :=
    List.length_modify ..
  refine ⟨h.flight.settle run outcome, fun w hw => (h.callers w hw).mono hevolves,
    fun other found => ?_, fun other hmem => ?_⟩
  · rw [List.mem_append, List.mem_singleton, ← h.completed]
    by_cases hother : run = other
    · subst hother
      rw [Flight.outcome?_settle_self _ _ hlt, hnone]
      simp [eq_comm]
    · rw [Flight.outcome?_settle_ne _ _ hother]
      simp [Ne.symm hother]
  · obtain ⟨hlt, hoff⟩ := h.forgotten other (by simpa using hmem)
    exact ⟨hlength ▸ hlt, hevolves.off other hlt hoff⟩

/-- Nothing that happens makes the register, the callers and the past disagree. -/
theorem Agree.step (h : Agree events s) (hstep : s.step event = some s') :
    Agree (events ++ [event]) s' := by
  cases move_of_step hstep with
  | ask key driven => exact h.ask key driven
  | complete run outcome r hrun hopen => exact h.complete outcome hrun hopen
  | collect caller w outcome hcaller hprogress houtcome =>
    refine h.advance caller (.refl _) ⟨(h.callers w (List.mem_of_getElem? hcaller)).asked, ?_,
      by simp, by simp [Waiter.HasCleanedUp]⟩ (by simp) (by simp)
    rintro found (hfound | hfound) <;> cases hfound
    exact houtcome
  | cleanUp caller w outcome hcaller hprogress =>
    have hw := h.callers w (List.mem_of_getElem? hcaller)
    have houtcome := hw.holds outcome (.inl hprogress)
    have hforgets : Flight.Forgets s.flight (s.flight.cleanUp w.run) :=
      Flight.forgets_cleanUp (by rw [houtcome]; rfl)
    refine h.advance caller hforgets ⟨(hw.mono (Flight.evolves_of_forgets hforgets)).asked, ?_,
      by simp, fun _ => h.flight.off_cleanUp⟩ (by simp) (by simp)
    rintro found (hfound | hfound) <;> cases hfound
    exact (hforgets.outcome? w.run).trans houtcome
  | answer caller last w outcome hcaller hprogress =>
    have hforgets := Flight.forgets_leave s.flight w.run
    have hw := (h.callers w (List.mem_of_getElem? hcaller)).mono (Flight.evolves_of_forgets hforgets)
    refine h.advance caller hforgets ⟨hw.asked, by simp, fun given hgiven => ?_,
      fun _ => hw.off (.inl ⟨outcome, hprogress⟩)⟩ (by simp) (by simp)
    cases hgiven
    exact ⟨outcome, hw.holds outcome (.inr hprogress), Flight.tells_handOut outcome last⟩
  | drop caller w hcaller hprogress =>
    have hforgets := Flight.forgets_leave s.flight w.run
    have hw := (h.callers w (List.mem_of_getElem? hcaller)).mono (Flight.evolves_of_forgets hforgets)
    exact h.advance caller hforgets ⟨hw.asked, by simp, by simp, by simp [Waiter.HasCleanedUp]⟩
      (by simp) (by simp)
  | forget run r hrun hdriven hfinished =>
    refine h.frame (Flight.forgets_driverDone _ _) (fun w hw => .inl hw) (by simp) fun other hother => ?_
    cases hother
    exact ⟨(List.getElem?_eq_some_iff.mp hrun).1, h.flight.off_driverDone hrun hdriven hfinished⟩

/-- Whatever has happened, the register, the callers and the past agree. -/
theorem agree_of_steps (h : (empty : Waiters κ α).steps events = some s) : Agree events s := by
  -- The invariant speaks of all that has happened, so the past grows in the induction.
  have hsteps (before later : List (Event κ α)) (x : Waiters κ α) (hx : Agree before x)
      (hlater : x.steps later = some s) : Agree (before ++ later) s := by
    induction later generalizing before x with
    | nil =>
      cases hlater
      rw [List.append_nil]
      exact hx
    | cons event rest ih =>
      obtain ⟨next, hstep, hrest⟩ := Option.bind_eq_some_iff.mp hlater
      rw [List.append_cons]
      exact ih (before ++ [event]) next (hx.step hstep) hrest
  exact hsteps [] events empty agree_empty h

/-! ### One run for all -/

/-- Whether there is an unfinished run of a key. -/
def Unfinished (s : Waiters κ α) (key : κ) (run : Nat) : Prop :=
  s.flight.states[run]? = some (key, none)

/-- Whether callers share runs exactly, after some events. -/
structure Shared (events : List (Event κ α)) (s : Waiters κ α) : Prop where
  /-- There is at most one unfinished run of a key, and it is the registered one. -/
  alone : ∀ key run run', s.Unfinished key run → s.Unfinished key run' → run = run'
  registered : ∀ key run, s.Unfinished key run → s.flight.current? key = some run
  /-- A caller starts a run if and only if no unfinished run is registered for its key. Otherwise it joins
  that run and starts nothing. -/
  starts : ∀ key driven s', s.step (.ask key driven) = some s' → ∃ w,
    s'.callers = s.callers ++ [w] ∧ w.key = key ∧ w.progress = .waiting ∧
    (w.started = true ↔ s.flight.isInFlight key = false) ∧ s'.Unfinished key w.run ∧
    s'.flight.current? key = some w.run ∧
    (w.started = true → w.run = s.flight.runs.length ∧
      s'.flight.states = s.flight.states ++ [(key, none)]) ∧
    (w.started = false → s.flight.current? key = some w.run ∧ s'.flight.states = s.flight.states)
  /-- No event takes an unfinished run off the register or puts another in its place. -/
  stays : ∀ event s' key run, s.step event = some s' → s.flight.current? key = some run →
    s.flight.outcome? run = none → s'.flight.current? key = some run
  /-- A caller has one run, which is a run of its key. -/
  keeps : ∀ event s' (caller : Nat) w, s.step event = some s' → s.callers[caller]? = some w →
    ∃ progress, s'.callers[caller]? = some { w with progress }
  asked : ∀ w ∈ s.callers, ∃ outcome, s.flight.states[w.run]? = some (w.key, outcome)
  /-- A caller that waits to the end is told what the work of its run has come to. -/
  told : ∀ w ∈ s.callers, ∀ given, w.progress = .answered given →
    ∃ outcome, .complete w.run outcome ∈ events ∧ Flight.Tells outcome given
  /-- There is one such outcome. -/
  once : ∀ run outcome outcome', .complete run outcome ∈ events → .complete run outcome' ∈ events →
    outcome' = outcome
  /-- Once its run has finished, nothing keeps a caller that waits from its end. -/
  answers : ∀ (caller : Nat) w outcome, s.callers[caller]? = some w → w.progress = .waiting →
    .complete w.run outcome ∈ events → ∀ last, ∃ s',
      s.steps [.collect caller, .cleanUp caller, .answer caller last] = some s' ∧
      s'.callers[caller]? = some { w with progress := .answered (Flight.handOut outcome last) }
  /-- A run is off the register once a caller has cleaned up after it, or its driver has. -/
  cleaned : ∀ w ∈ s.callers, w.HasCleanedUp → s.flight.Off w.run
  forgotten : ∀ run, .forget run ∈ events → s.flight.Off run

/-- The register that an event leaves. -/
theorem Agree.stays (h : Agree events s) (hstep : s.step event = some s') {key : κ} {run : Nat}
    (hcurrent : s.flight.current? key = some run) (hopen : s.flight.outcome? run = none) :
    s'.flight.current? key = some run := by
  -- What is taken off the register has finished, and this run has not.
  have hforgets {flight : Flight κ α} (hforgets : Flight.Forgets s.flight flight) :
      flight.current? key = some run := by
    rcases hforgets.current key with hsame | ⟨-, other, hother, hfinished⟩
    · rw [hsame, hcurrent]
    · obtain rfl : run = other := Option.some.inj (hcurrent.symm.trans hother)
      rw [hopen] at hfinished
      cases hfinished
  cases move_of_step hstep with
  | ask key' driven =>
    rcases s.flight.register_cases key' driven with ⟨-, -, -, -, hsame⟩ | ⟨hdone, -, -, -, hsame⟩
    · exact (hsame key).trans hcurrent
    · refine (hsame key).trans ?_
      have hkey : key ≠ key' := by
        rintro rfl
        have hfinished := hdone run hcurrent
        rw [hopen] at hfinished
        cases hfinished
      rw [if_neg hkey, hcurrent]
  | complete | collect => exact hcurrent
  | cleanUp caller w outcome hcaller hprogress =>
    have houtcome := (h.callers w (List.mem_of_getElem? hcaller)).holds outcome (.inl hprogress)
    exact hforgets (Flight.forgets_cleanUp (by rw [houtcome]; rfl))
  | answer | drop => exact hforgets (Flight.forgets_leave _ _)
  | forget run r hrun => exact hforgets (Flight.forgets_driverDone _ _)

/-- A caller stays with its run. -/
theorem keeps_of_step {caller : Nat} (hstep : s.step event = some s')
    (hcaller : s.callers[caller]? = some w) :
    ∃ progress, s'.callers[caller]? = some { w with progress } := by
  have hset {other : Nat} {w' : Waiter κ α} (hother : s.callers[other]? = some w')
      (progress : Progress α) : ∃ progress',
      (s.setCaller other w' progress).callers[caller]? = some { w with progress := progress' } := by
    show ∃ progress', (s.callers.set other { w' with progress })[caller]? = some _
    by_cases hsame : other = caller
    · subst hsame
      obtain rfl : w = w' := Option.some.inj (hcaller.symm.trans hother)
      exact ⟨progress, List.getElem?_set_self (List.getElem?_eq_some_iff.mp hcaller).1⟩
    · exact ⟨w.progress, by rw [List.getElem?_set_ne hsame, hcaller]⟩
  cases move_of_step hstep with
  | ask key driven =>
    refine ⟨w.progress, ?_⟩
    show (s.callers ++ _)[caller]? = some w
    rw [List.getElem?_append_left (List.getElem?_eq_some_iff.mp hcaller).1, hcaller]
  | complete | forget => exact ⟨w.progress, hcaller⟩
  | collect other w' outcome hother => exact hset hother _
  | cleanUp other w' outcome hother => exact hset hother _
  | answer other last w' outcome hother => exact hset hother _
  | drop other w' hother => exact hset hother _

/-- What a caller that asks for a run gets. -/
theorem Agree.starts (h : Agree events s) {key : κ} {driven : Bool}
    (hstep : s.step (.ask key driven) = some s') : ∃ w,
    s'.callers = s.callers ++ [w] ∧ w.key = key ∧ w.progress = .waiting ∧
    (w.started = true ↔ s.flight.isInFlight key = false) ∧ s'.Unfinished key w.run ∧
    s'.flight.current? key = some w.run ∧
    (w.started = true → w.run = s.flight.runs.length ∧
      s'.flight.states = s.flight.states ++ [(key, none)]) ∧
    (w.started = false → s.flight.current? key = some w.run ∧ s'.flight.states = s.flight.states) := by
  cases hstep
  refine ⟨_, rfl, rfl, rfl, ?_⟩
  rcases s.flight.register_cases key driven with
    ⟨hcurrent, hopen, hstarted, hstates, hsame⟩ | ⟨hdone, hrun, hstarted, hstates, hsame⟩
  · have hflying : s.flight.isInFlight key = true := by
      rw [Flight.isInFlight, hcurrent]
      exact Option.isNone_iff_eq_none.mpr hopen
    obtain ⟨outcome, hstate⟩ := h.flight.registered key _ hcurrent
    rw [Flight.outcome?_eq, hstate] at hopen
    obtain rfl : outcome = none := hopen
    refine ⟨by simp [hstarted, hflying], ?_, (hsame key).trans hcurrent, ?_, fun _ => ⟨hcurrent, hstates⟩⟩
    · rw [Unfinished, hstates, hstate]
    · simp [hstarted]
  · have hflying : s.flight.isInFlight key = false := by
      unfold Flight.isInFlight
      split
      · next id hid => rw [← Option.not_isSome, hdone id hid]; rfl
      · rfl
    refine ⟨by simp [hstarted, hflying], ?_, ?_, fun _ => ⟨hrun, hstates⟩, by simp [hstarted]⟩
    · rw [Unfinished, hstates, hrun, ← Flight.length_states, List.getElem?_concat_length]
    · rw [hsame key, if_pos rfl, hrun]

omit [DecidableEq κ] in
theorem getElem?_setCaller {caller : Nat} {w' : Waiter κ α} (hcaller : s.callers[caller]? = some w')
    (progress : Progress α) :
    (s.setCaller caller w progress).callers[caller]? = some { w with progress } :=
  List.getElem?_set_self (List.getElem?_eq_some_iff.mp hcaller).1

/-- A caller that waits for a run with an outcome comes to its end. -/
theorem answers_of_outcome {caller : Nat} {outcome : Except Error α}
    (hcaller : s.callers[caller]? = some w) (hprogress : w.progress = .waiting)
    (houtcome : s.flight.outcome? w.run = some outcome) (last : Bool) : ∃ s',
      s.steps [.collect caller, .cleanUp caller, .answer caller last] = some s' ∧
      s'.callers[caller]? = some { w with progress := .answered (Flight.handOut outcome last) } := by
  obtain ⟨key, run, started, progress⟩ := w
  obtain rfl : progress = .waiting := hprogress
  let collected := s.setCaller caller ⟨key, run, started, .waiting⟩ (.collected outcome)
  have hcollected : collected.callers[caller]? = some ⟨key, run, started, .collected outcome⟩ :=
    getElem?_setCaller hcaller _
  let cleaned : Waiters κ α := ⟨s.flight.cleanUp run,
    (collected.setCaller caller ⟨key, run, started, .waiting⟩ (.cleaned outcome)).callers⟩
  have hcleaned : cleaned.callers[caller]? = some ⟨key, run, started, .cleaned outcome⟩ :=
    getElem?_setCaller hcollected _
  have hcollect : s.step (.collect caller) = some collected := by
    simp only [step, hcaller, houtcome]
    rfl
  have hcleanUp : collected.step (.cleanUp caller) = some cleaned := by
    simp only [step, hcollected]
    rfl
  let answered : Waiters κ α := ⟨cleaned.flight.leave run, (cleaned.setCaller caller
    ⟨key, run, started, .waiting⟩ (.answered (Flight.handOut outcome last))).callers⟩
  have hanswered : answered.callers[caller]?
      = some ⟨key, run, started, .answered (Flight.handOut outcome last)⟩ := getElem?_setCaller hcleaned _
  have hanswer : cleaned.step (.answer caller last) = some answered := by
    simp only [step, hcleaned]
    rfl
  refine ⟨answered, ?_, hanswered⟩
  simp only [steps, List.foldlM_cons, List.foldlM_nil, hcollect, hcleanUp, hanswer, Option.bind_eq_bind,
    Option.bind_some]
  rfl

/-- Whatever has happened, callers share runs exactly. -/
theorem shared_of_steps (h : (empty : Waiters κ α).steps events = some s) : Shared events s := by
  have hagree := agree_of_steps h
  refine ⟨fun key run run' hrun hrun' => ?_, hagree.flight.unfinished, fun _ _ _ => hagree.starts,
    fun _ _ _ _ hstep => hagree.stays hstep, fun _ _ _ _ => keeps_of_step,
    fun w hw => (hagree.callers w hw).asked, ?_, ?_, ?_, fun w hw => (hagree.callers w hw).off,
    fun run hrun => (hagree.forgotten run hrun).2⟩
  · exact Option.some.inj ((hagree.flight.unfinished key run hrun).symm.trans
      (hagree.flight.unfinished key run' hrun'))
  · intro w hw given hgiven
    obtain ⟨outcome, houtcome, htells⟩ := (hagree.callers w hw).told given hgiven
    exact ⟨outcome, (hagree.completed _ _).mp houtcome, htells⟩
  · intro run outcome outcome' hrun hrun'
    rw [← hagree.completed] at hrun hrun'
    exact Option.some.inj (hrun'.symm.trans hrun)
  · intro caller w outcome hcaller hprogress hcomplete
    exact answers_of_outcome hcaller hprogress ((hagree.completed _ _).mpr hcomplete)

/-- Two callers share a run that fails, and a third one asks while they clean up: it starts a run that
stays. The first caller to let go gets a view of the error, the last one the error itself. -/
theorem shared_failure : ∃ s, (empty : Waiters Nat Nat).steps
      [.ask 1 true, .ask 1 false, .complete 0 (.error (.file .notFound)), .collect 0, .collect 1,
        .cleanUp 1, .ask 1 false, .cleanUp 0, .answer 0 false, .answer 1 true, .forget 0] = some s ∧
    s.callers.map Waiter.progress = [.answered (.error (.shared (.file .notFound))),
      .answered (.error (.file .notFound)), .waiting] ∧
    s.flight.current? 1 = some 1 ∧
    Shared [.ask 1 true, .ask 1 false, .complete 0 (.error (.file .notFound)), .collect 0, .collect 1,
      .cleanUp 1, .ask 1 false, .cleanUp 0, .answer 0 false, .answer 1 true, .forget 0] s :=
  ⟨_, rfl, rfl, rfl, shared_of_steps rfl⟩

end Waiters

end SourceTables

import SourceTables.Flight.Basic

/-!
# `SourceTables.Proofs.Flight.Runs`: what the operations of a flight change

Callers come and go without touching what is known of a run, so runs are looked at here by their keys
and outcomes alone.

The theorems:

* `register_cases`: a caller joins the unfinished run that is registered for its key, or starts one and
  registers it.
* `finish_eq_some`, `forgets_driverDone`: a caller that is given an outcome and a driver that goes away
  leave all runs as they are, and at most take finished ones off the register.
* `finish_settle`: a caller that looks at a run with an outcome at hand is given the run's first outcome,
  and takes the run off the register.
-/

set_option autoImplicit false

namespace SourceTables.Flight

variable {κ α : Type}

/-! ### Runs by key and outcome -/

/-- The keys and outcomes of all runs. -/
def states (f : Flight κ α) : List (κ × Option (Except Error α)) :=
  f.runs.map fun run => (run.key, run.outcome)

/-- The outcome of a run is that of its state. -/
theorem outcome?_eq (f : Flight κ α) (id : Nat) : f.outcome? id = (f.states[id]?).bind Prod.snd := by
  unfold outcome? states
  rw [List.getElem?_map]
  cases f.runs[id]? <;> rfl

@[simp] theorem length_states (f : Flight κ α) : f.states.length = f.runs.length :=
  List.length_map _

/-- Changes that keep key and outcome keep the states. -/
theorem states_update {f : Flight κ α} {id : Nat} {change : Run κ α → Run κ α}
    (h : ∀ run, (change run).key = run.key ∧ (change run).outcome = run.outcome) :
    (f.update id change).states = f.states := by
  refine List.ext_getElem? fun i => ?_
  simp only [states, update, List.getElem?_map, List.getElem?_modify]
  split
  · cases f.runs[i]? with
    | none => rfl
    | some run => simp [h run]
  · cases f.runs[i]? <;> rfl

@[simp] theorem states_leave (f : Flight κ α) (id : Nat) : (f.leave id).states = f.states :=
  states_update fun _ => ⟨rfl, rfl⟩

/-- Settling a run gives it an outcome, unless it has one. -/
theorem states_settle (f : Flight κ α) (id : Nat) (outcome : Except Error α) :
    (f.settle id outcome).states
      = f.states.modify id fun state => (state.1, state.2.or (some outcome)) := by
  refine List.ext_getElem? fun i => ?_
  simp only [states, settle, update, List.getElem?_map, List.getElem?_modify]
  split
  · cases f.runs[i]? <;> rfl
  · cases f.runs[i]? <;> rfl

/-- Settling a run changes no other. -/
theorem outcome?_settle_ne (f : Flight κ α) {id i : Nat} (outcome : Except Error α) (h : id ≠ i) :
    (f.settle id outcome).outcome? i = f.outcome? i := by
  rw [outcome?_eq, outcome?_eq, states_settle, List.getElem?_modify]
  simp [h]

/-- A run that is settled keeps the outcome that it has. -/
theorem outcome?_settle_self (f : Flight κ α) {id : Nat} (outcome : Except Error α)
    (h : id < f.runs.length) :
    (f.settle id outcome).outcome? id = (f.outcome? id).or (some outcome) := by
  rw [← length_states] at h
  rw [outcome?_eq, outcome?_eq, states_settle, List.getElem?_modify_eq, List.getElem?_eq_getElem h]
  rfl

/-! ### The register -/

variable [DecidableEq κ]

@[simp] theorem current?_update (f : Flight κ α) (id : Nat) (change : Run κ α → Run κ α) (k : κ) :
    (f.update id change).current? k = f.current? k := rfl

@[simp] theorem current?_leave (f : Flight κ α) (id : Nat) (k : κ) :
    (f.leave id).current? k = f.current? k := rfl

@[simp] theorem current?_settle (f : Flight κ α) (id : Nat) (outcome : Except Error α) (k : κ) :
    (f.settle id outcome).current? k = f.current? k := rfl

/-- A key that is taken off the register has no run there; the others stay. -/
theorem current?_deregister (f : Flight κ α) (key k : κ) :
    (f.deregister key).current? k = if k = key then none else f.current? k := by
  unfold current? deregister
  rw [List.find?_filter]
  split
  · next h =>
    subst h
    rw [List.find?_eq_none.mpr, Option.map_none]
    intro e _
    simp
  · next h =>
    congr 2
    funext e
    by_cases he : e.1 = k
    · simp [he, h]
    · simp [he]

@[simp] theorem states_deregister (f : Flight κ α) (key : κ) :
    (f.deregister key).states = f.states := rfl

/-- A caller joins the unfinished run that is registered for its key, or starts one. -/
theorem register_cases (f : Flight κ α) (key : κ) (driven : Bool) :
    (f.current? key = some (f.register key driven).run ∧
      f.outcome? (f.register key driven).run = none ∧
      (f.register key driven).started = false ∧
      (f.register key driven).flight.states = f.states ∧
      ∀ k, (f.register key driven).flight.current? k = f.current? k) ∨
    ((∀ id, f.current? key = some id → (f.outcome? id).isSome) ∧
      (f.register key driven).run = f.runs.length ∧
      (f.register key driven).started = true ∧
      (f.register key driven).flight.states = f.states ++ [(key, none)] ∧
      ∀ k, (f.register key driven).flight.current? k
        = if k = key then some f.runs.length else f.current? k) := by
  have hstart : (register.start f key driven).run = f.runs.length ∧
      (register.start f key driven).started = true ∧
      (register.start f key driven).flight.states = f.states ++ [(key, none)] ∧
      ∀ k, (register.start f key driven).flight.current? k
        = if k = key then some f.runs.length else f.current? k := by
    refine ⟨rfl, rfl, ?_, ?_⟩
    · simp [register.start, states, deregister]
    · intro k
      have hother := f.current?_deregister key k
      unfold current? at hother ⊢
      unfold register.start
      rw [List.find?_cons]
      by_cases hk : k = key
      · simp [hk]
      · simp only [hk, if_false] at hother ⊢
        simp only [show ¬ key = k from fun h => hk h.symm, decide_false]
        exact hother
  unfold register
  split
  · next id hid =>
    split
    · next hnone =>
      refine .inl ⟨hid, Option.isNone_iff_eq_none.mp hnone, rfl, ?_, fun _ => rfl⟩
      exact states_update fun _ => ⟨rfl, rfl⟩
    · next hsome =>
      refine .inr ⟨?_, hstart⟩
      intro id' hid'
      rw [hid] at hid'
      cases hid'
      exact Option.isSome_iff_ne_none.mpr (by simpa using hsome)
  · next hid =>
    refine .inr ⟨?_, hstart⟩
    intro id hid'
    rw [hid] at hid'
    cases hid'

/-! ### Callers and drivers that go away -/

/-- Whether a flight is an earlier one less callers, drivers and the register of finished runs. -/
structure Forgets (f f' : Flight κ α) : Prop where
  states : f'.states = f.states
  current : ∀ k, f'.current? k = f.current? k ∨
    f'.current? k = none ∧ ∃ id, f.current? k = some id ∧ (f.outcome? id).isSome = true

theorem Forgets.refl (f : Flight κ α) : Forgets f f := ⟨rfl, fun _ => .inl rfl⟩

theorem Forgets.outcome? {f f' : Flight κ α} (h : Forgets f f') (id : Nat) :
    f'.outcome? id = f.outcome? id := by
  rw [outcome?_eq, outcome?_eq, h.states]

theorem Forgets.length {f f' : Flight κ α} (h : Forgets f f') : f'.runs.length = f.runs.length := by
  rw [← length_states, ← length_states, h.states]

theorem Forgets.trans {f g k : Flight κ α} (hfg : Forgets f g) (hgk : Forgets g k) : Forgets f k := by
  refine ⟨hgk.states.trans hfg.states, fun key => ?_⟩
  rcases hgk.current key with hsame | ⟨hnone, id, hid, hfinished⟩
  · rw [hsame]
    exact hfg.current key
  · rcases hfg.current key with hsame | ⟨hnone', hrest⟩
    · exact .inr ⟨hnone, id, hsame ▸ hid, hfg.outcome? id ▸ hfinished⟩
    · exact .inr ⟨hnone, hrest⟩

theorem forgets_leave (f : Flight κ α) (id : Nat) : Forgets f (f.leave id) :=
  ⟨states_leave f id, fun _ => .inl rfl⟩

/-- A finished run can be taken off the register. -/
theorem forgets_deregister {f : Flight κ α} {key : κ} {id : Nat} (hid : f.current? key = some id)
    (hfinished : (f.outcome? id).isSome = true) : Forgets f (f.deregister key) := by
  refine ⟨rfl, fun k => ?_⟩
  rw [current?_deregister]
  by_cases hk : k = key
  · rw [if_pos hk, hk]
    exact .inr ⟨rfl, id, hid, hfinished⟩
  · exact .inl (if_neg hk)

/-- A caller that is given an outcome is given that of its run; the error of a run may be wrapped. -/
theorem finish_eq_some {f f' : Flight κ α} {id : Nat} {given : Except Error α}
    (h : f.finish id = some (given, f')) :
    Forgets f f' ∧ ∃ outcome, f.outcome? id = some outcome ∧
      (∀ a, given = .ok a → outcome = .ok a) ∧
      ∀ e, given = .error e → ∃ e', outcome = .error e' ∧ e.root = e'.root := by
  unfold finish at h
  split at h
  · cases h
  · next run hrun =>
    obtain ⟨outcome, houtcome, h⟩ := Option.map_eq_some_iff.mp h
    have hid : f.outcome? id = some outcome := by
      rw [Flight.outcome?, hrun]
      exact houtcome
    have hforgets : Forgets f
        ((if f.current? run.key = some id then f.deregister run.key else f).leave id) := by
      refine Forgets.trans ?_ (forgets_leave _ _)
      split
      · next hcurrent => exact forgets_deregister hcurrent (by rw [hid]; rfl)
      · exact .refl f
    cases outcome with
    | ok value =>
      cases h
      exact ⟨hforgets, _, hid, fun a ha => ha, nofun⟩
    | error e =>
      cases h
      refine ⟨hforgets, _, hid, nofun, fun e' he' => ⟨e, rfl, ?_⟩⟩
      cases he'
      exact Error.root_handOut _ _

/-- A driver that goes away takes its run off the register if it has finished. -/
theorem forgets_driverDone (f : Flight κ α) (id : Nat) : Forgets f (f.driverDone id) := by
  unfold driverDone
  split
  · next run hrun =>
    split
    · have hupdate : Forgets f (f.update id fun run => { run with driven := false }) :=
        ⟨states_update fun _ => ⟨rfl, rfl⟩, fun _ => .inl rfl⟩
      refine hupdate.trans ?_
      unfold forgetFinished
      split
      · next current hcurrent =>
        split
        · next hfinished => exact forgets_deregister hcurrent hfinished
        · exact .refl _
      · exact .refl _
    · exact .refl f
  · exact .refl f

/-! ### Outcomes at hand -/

/-- A caller that looks at a run with an outcome at hand is given the run's first outcome: an error
perhaps wrapped for the occasion. The run has that outcome from then on, and is registered no more. -/
theorem finish_settle {f f' : Flight κ α} {id : Nat} {outcome given : Except Error α}
    (h : (f.settle id outcome).finish id = some (given, f')) :
    ∃ key first, f.states[id]? = some (key, first) ∧
      f'.states = f.states.set id (key, some (first.getD outcome)) ∧
      (∀ k, f'.current? k = if k = key ∧ f.current? key = some id then none else f.current? k) ∧
      (∀ a, given = .ok a ↔ first.getD outcome = .ok a) := by
  unfold finish at h
  split at h
  · cases h
  · next run hrun =>
    obtain ⟨last, hlast, h⟩ := Option.map_eq_some_iff.mp h
    have hstate : (f.settle id outcome).states[id]? = some (run.key, some last) := by
      rw [states, List.getElem?_map, hrun, ← hlast]
      rfl
    rw [states_settle, List.getElem?_modify_eq] at hstate
    obtain ⟨⟨key, first⟩, hfirst, hmodified⟩ := Option.map_eq_some_iff.mp hstate
    obtain ⟨rfl, hor⟩ := Prod.mk.inj hmodified
    have hlast' : first.getD outcome = last := by
      cases first <;> simpa using hor
    have hsettled : (f.settle id outcome).states
        = f.states.set id (run.key, some (first.getD outcome)) := by
      refine List.ext_getElem? fun i => ?_
      rw [states_settle, List.getElem?_modify, List.getElem?_set]
      by_cases hi : id = i
      · subst hi
        have hlt := (List.getElem?_eq_some_iff.mp hfirst).1
        rw [hfirst, if_pos rfl, if_pos hlt]
        simp [hlast']
      · rw [if_neg hi]
        simp [hi]
    -- Whatever the outcome is, the runs and the register are left the same way.
    have hleft : f' = (if (f.settle id outcome).current? run.key = some id
        then (f.settle id outcome).deregister run.key else f.settle id outcome).leave id := by
      cases last <;> cases h <;> rfl
    refine ⟨run.key, first, hfirst, ?_, ?_, ?_⟩
    · rw [hleft, states_leave, ← hsettled]
      split <;> rfl
    · intro k
      rw [hleft, current?_leave, current?_settle]
      split
      · next hcurrent => rw [current?_deregister, current?_settle]; simp [hcurrent]
      · next hcurrent => simp [hcurrent]
    · intro a
      rw [hlast']
      cases last with
      | ok value => cases h; rfl
      | error e =>
        cases h
        exact ⟨nofun, nofun⟩

end SourceTables.Flight

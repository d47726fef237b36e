import SourceTables.Proofs.SharedTable.Atomic

/-!
# `SourceTables.Proofs.SharedTable.Recent`: how recent a scan is

A pass publishes a candidate, or confirms the snapshot that shows the same. A scan that has waited for a
refresh sees what a pass has published or confirmed that was running when the scan looked at the flag, or
began later. If no pass ran then, this pass began after the last signal, and so it did for a scan that did
not wait.

A scan that finds a pass running may be given what the pass found before the signal: requests that meet a
running pass wait for this one.

The theorems:

* `Since.next`, `Signalled.next`, `Follows.next`: what one event keeps of the order of passes, of a
  signal, and of a scan.
* `scan_recent`: how recent a scan is.
* `not_scan_recent`: a scan that joins a running pass may miss a signal.
-/

set_option autoImplicit false

namespace SourceTables.SharedTable

/-- Whether the last pass to publish or confirm a snapshot is of some kind. -/
def Recent (events : List Event) (P : Nat → Prop) : Prop :=
  ∃ before run after, events = before ++ .publish run :: after ∧ (∀ other, .publish other ∉ after) ∧ P run

/-- Whether a pass was of some kind at first, or began since. -/
def Begun (Q : Nat → Prop) (since : List Event) (run : Nat) : Prop := Q run ∨ .begin run ∈ since

/-- Whether a pass has published a candidate or confirmed a snapshot. -/
def Pass.HasPublished (pass : Pass) : Prop :=
  ∃ snapshot, pass.stage = .published snapshot ∨ pass.stage = .ended (.ok snapshot)

variable {s s' : SharedTable} {run : Nat} {pass pass' : Pass} {event : Event} {Q : Nat → Prop}
  {events since : List Event}

/-! ### The last pass to publish -/

theorem Begun.mono (h : Begun Q since run) (event : Event) : Begun Q (since ++ [event]) run :=
  h.imp_right fun hbegin => List.mem_append_left _ hbegin

/-- A pass that has begun had begun before, unless this is what happens now. -/
theorem begun_concat : Begun Q (since ++ [event]) run ↔ Begun Q since run ∨ event = .begin run := by
  unfold Begun
  rw [List.mem_append, List.mem_singleton, or_assoc, eq_comm]

theorem Recent.mono {P P' : Nat → Prop} (h : Recent events P) (hP : ∀ run, P run → P' run) :
    Recent events P' := by
  obtain ⟨before, run, after, hevents, hafter, hrun⟩ := h
  exact ⟨before, run, after, hevents, hafter, hP run hrun⟩

/-- A pass that publishes now is the last one. -/
theorem recent_publish {P : Nat → Prop} (h : P run) : Recent (events ++ [.publish run]) P :=
  ⟨events, run, [], rfl, nofun, h⟩

/-- After one more event the last pass is the same, unless one publishes now. -/
theorem Recent.concat {P : Nat → Prop} (h : Recent events P) (hP : ∀ run, event = .publish run → P run) :
    Recent (events ++ [event]) P := by
  by_cases hpublish : ∃ run, event = .publish run
  · obtain ⟨run, rfl⟩ := hpublish
    exact recent_publish (hP run rfl)
  · obtain ⟨before, run, after, rfl, hafter, hrun⟩ := h
    refine ⟨before, run, after ++ [event], by rw [List.append_assoc]; rfl, fun other hother => ?_, hrun⟩
    rcases List.mem_append.mp hother with hother | hother
    · exact hafter other hother
    · exact hpublish ⟨other, (List.mem_singleton.mp hother).symm⟩

/-- A pass that publishes is running. -/
theorem running_of_publish (h : s.Coherent) (hstep : s.step (.publish run) = some s') : s.Running run := by
  cases move_of_step hstep with
  | publish _ candidate pass hpass hstage =>
    exact ⟨pass, hpass, by simp [hstage], h.outcome?_eq_none hpass (by simp [hstage])⟩

/-- A pass that runs ran before, unless it begins now. -/
theorem Running.before (h : s'.Running run) (hstep : s.step event = some s') :
    s.Running run ∨ event = .begin run := by
  obtain ⟨pass', hpass', hbegun, hopen⟩ := h
  have hopen' := outcome?_eq_none_of_step hstep hopen
  rcases pass_of_step hstep hpass' with hsame | ⟨-, hregistered⟩ | ⟨pass, hpass, hnext⟩
  · exact .inl ⟨pass', hsame, hbegun, hopen'⟩
  · exact absurd hregistered hbegun
  · cases hnext with
    | begin => exact .inr rfl
    | build _ hstage | callOff _ hstage | fail _ hstage | succeed _ hstage | publish _ hstage
      | stamp _ _ hstage => exact .inl ⟨pass, hpass, by simp [hstage], hopen'⟩

/-- A pass that has published had done so before, unless it does so now. -/
theorem Pass.Next.hasPublished (h : pass.Next s run event pass') (hpublished : pass'.HasPublished) :
    pass.HasPublished ∨ event = .publish run := by
  cases h with
  | publish => exact .inr rfl
  | stamp now snapshot hstage => exact .inl ⟨snapshot, .inl hstage⟩
  | begin | build | callOff | fail | succeed =>
    obtain ⟨snapshot, hstage | hstage⟩ := hpublished <;> cases hstage

/-! ### Passes since some time -/

/-- What is known of passes that began since some time, or were of some kind then: none is overtaken by
an older one. -/
structure Since (Q : Nat → Prop) (events since : List Event) (s : SharedTable) : Prop where
  coherent : s.Coherent
  /-- A pass that runs is one of them, or none of them has begun yet. -/
  own : ∀ run, s.Running run → Begun Q since run ∨ ∀ other, ¬ Begun Q since other
  /-- One of them was the last to publish as soon as one of them has published. -/
  last : ∀ run pass, s.passes[run]? = some pass → pass.HasPublished → Begun Q since run →
    Recent events (Begun Q since)

/-- No older pass comes after one that has begun since. -/
theorem Since.recent (h : Since Q events since s) (hstep : s.step event = some s')
    (hrecent : Recent events (Begun Q since)) : Recent (events ++ [event]) (Begun Q (since ++ [event])) := by
  have hsame : Recent (events ++ [event]) (Begun Q since) := by
    refine hrecent.concat fun run hpublish => ?_
    subst hpublish
    obtain ⟨-, other, -, -, -, hother⟩ := hrecent
    exact (h.own run (running_of_publish h.coherent hstep)).resolve_right fun hnone => hnone other hother
  exact hsame.mono fun run hrun => hrun.mono event

/-- What one event keeps of the order of passes. -/
theorem Since.next (h : Since Q events since s) (hstep : s.step event = some s') :
    Since Q (events ++ [event]) (since ++ [event]) s' := by
  refine ⟨h.coherent.step hstep, fun run hrun => ?_, fun run pass' hpass' hpublished hbegun => ?_⟩
  · rcases hrun.before hstep with hran | rfl
    · refine (h.own run hran).imp (fun hbegun => hbegun.mono event) fun hnone other hother => ?_
      rcases begun_concat.mp hother with hother | rfl
      · exact hnone other hother
      · cases move_of_step hstep with
        | begin _ pass hpass hstage => exact h.coherent.not_begin hran hpass hstage
    · exact .inl (begun_concat.mpr (.inr rfl))
  -- A pass that begins now has published nothing, so this one had begun before.
  · have hbegins : event = .begin run → ¬ pass'.HasPublished := by
      rintro rfl ⟨snapshot, hstage⟩
      cases move_of_step hstep with
      | begin _ pass hpass _ =>
        change (s.passes.set run _)[run]? = some pass' at hpass'
        rw [List.getElem?_set_self (List.getElem?_eq_some_iff.mp hpass).1] at hpass'
        cases hpass'
        rcases hstage with hstage | hstage <;> cases hstage
    have hsince : Begun Q since run :=
      (begun_concat.mp hbegun).resolve_right fun hbegin => hbegins hbegin hpublished
    rcases pass_of_step hstep hpass' with hsame | ⟨-, hregistered⟩ | ⟨pass, hpass, hnext⟩
    · exact h.recent hstep (h.last run pass' hsame hpublished hsince)
    · obtain ⟨snapshot, hstage | hstage⟩ := hpublished <;> rw [hregistered] at hstage <;> cases hstage
    · rcases hnext.hasPublished hpublished with hbefore | rfl
      · exact h.recent hstep (h.last run pass hpass hbefore hsince)
      · exact recent_publish hbegun

/-! ### After a signal -/

/-- Whether a pass found the flag set and has not ended, or publishes: it publishes, or it sets the flag
again. -/
def Pass.Promises (pass : Pass) : Prop :=
  ((pass.stage = .building ∨ ∃ outcome, pass.stage = .built outcome) ∧ pass.wasStale = true) ∨
    ∃ candidate, pass.stage = .publishing candidate

/-- No pass in particular. -/
def nothing : Nat → Prop := fun _ => False

/-- What is known after a signal: it still stands, or a pass that began since has published, or one that
runs will do either. -/
structure Signalled (events since : List Event) (s : SharedTable) : Prop
    extends Since nothing events since s where
  stands : s.table.stale = true ∨ Recent events (Begun nothing since) ∨
    ∃ run pass, s.passes[run]? = some pass ∧ Begun nothing since run ∧ pass.Promises

/-- A pass that keeps its promise, does so now, or sets the flag. -/
theorem Pass.Promises.next (h : pass.Promises) (hpass : s.passes[run]? = some pass)
    (hstep : s.step event = some s') (hnext : pass.Next s run event pass') :
    s'.table.stale = true ∨ event = .publish run ∨ pass'.Promises := by
  have hsame {pass₂ : Pass} (hpass₂ : s.passes[run]? = some pass₂) : pass₂ = pass := by
    rw [hpass] at hpass₂
    exact (Option.some.inj hpass₂).symm
  -- A pass that has built something keeps what it found.
  have hwas {outcome : Except Error Snapshot} (hstage : pass.stage = .built outcome) :
      pass.wasStale = true := by
    rcases h with ⟨-, hwas⟩ | ⟨candidate, hpublishing⟩
    · exact hwas
    · rw [hstage] at hpublishing
      cases hpublishing
  cases hnext with
  | begin hstage => simp [Pass.Promises, hstage] at h
  | build outcome hstage =>
    have hwas : pass.wasStale = true := by simpa [Pass.Promises, hstage] using h
    exact .inr (.inr (.inl ⟨.inr ⟨outcome, rfl⟩, hwas⟩))
  | callOff candidate hstage hcancelled =>
    cases move_of_step hstep with
    | callOff _ _ pass₂ hpass₂ _ _ =>
      obtain rfl := hsame hpass₂
      exact .inl (by simp [LiveTable.restoreStale, hwas hstage])
    | fail _ e pass₂ hpass₂ hstage₂ =>
      obtain rfl := hsame hpass₂
      rw [hstage] at hstage₂
      cases hstage₂
    | succeed _ candidate₂ pass₂ hpass₂ _ hopen =>
      obtain rfl := hsame hpass₂
      rw [hcancelled] at hopen
      cases hopen
  | fail e hstage =>
    cases move_of_step hstep with
    | fail _ e₂ pass₂ hpass₂ _ =>
      obtain rfl := hsame hpass₂
      exact .inl (by simp [LiveTable.restoreStale, LiveTable.asksAgain, hwas hstage])
    | callOff _ _ pass₂ hpass₂ hstage₂ _ | succeed _ _ pass₂ hpass₂ hstage₂ _ =>
      obtain rfl := hsame hpass₂
      rw [hstage] at hstage₂
      cases hstage₂
  | succeed candidate hstage hcancelled => exact .inr (.inr (.inr ⟨candidate, rfl⟩))
  | publish candidate hstage => exact .inr (.inl rfl)
  | stamp now snapshot hstage => simp [Pass.Promises, hstage] at h

/-- What one event keeps of a signal. -/
theorem Signalled.next (h : Signalled events since s) (hstep : s.step event = some s') :
    Signalled (events ++ [event]) (since ++ [event]) s' := by
  refine ⟨h.toSince.next hstep, ?_⟩
  rcases h.stands with hstale | hrecent | ⟨run, pass, hpass, hbegun, hpromises⟩
  · rcases stale_of_step hstep hstale with hstale' | ⟨run, pass, rfl, -, -⟩
    · exact .inl hstale'
    · -- The pass that begins now has found the flag set.
      cases move_of_step hstep with
      | begin _ pass hpass hstage =>
        have hset := List.getElem?_set_self (a := (⟨pass.token, s.table.stale, .building⟩ : Pass))
          (List.getElem?_eq_some_iff.mp hpass).1
        exact .inr (.inr ⟨run, _, hset, begun_concat.mpr (.inr rfl), .inl ⟨.inl rfl, hstale⟩⟩)
  · exact .inr (.inl (h.toSince.recent hstep hrecent))
  · obtain ⟨pass', hpass', rfl | hnext⟩ := next_of_step hstep hpass
    · exact .inr (.inr ⟨run, pass', hpass', hbegun.mono event, hpromises⟩)
    · rcases hpromises.next hpass hstep hnext with hstale | rfl | hpromises'
      · exact .inl hstale
      · exact .inr (.inl (recent_publish (hbegun.mono _)))
      · exact .inr (.inr ⟨run, pass', hpass', hbegun.mono event, hpromises'⟩)

/-- If no pass runs, a signal still stands or a pass that began since was the last to publish. -/
theorem Signalled.idle (h : Signalled events since s) (hidle : ∀ run, ¬ s.Running run)
    (hclear : s.table.stale = false) : Recent events (Begun nothing since) := by
  rcases h.stands with hstale | hrecent | ⟨run, pass, hpass, -, hpromises⟩
  · rw [hclear] at hstale
    cases hstale
  · exact hrecent
  · have hstages : pass.stage ≠ .registered ∧ ∀ outcome, pass.stage ≠ .ended outcome := by
      rcases hpromises with ⟨hstage | ⟨outcome, hstage⟩, -⟩ | ⟨candidate, hstage⟩ <;> simp [hstage]
    exact absurd ⟨pass, hpass, hstages.1, h.coherent.outcome?_eq_none hpass hstages.2⟩ (hidle run)

/-! ### After a scan has looked at the flag -/

/-- What is known of a scan by how far it has come: it waits for a pass that began since it looked or was
of some kind then, and what it reads is of such a pass if it has waited. -/
def Progress.Follows (P : Nat → Prop) (passes : List Pass) (recent skipped : Prop) : Progress → Prop
  | .looking => False
  | .timing => skipped
  | .waiting run _ => ∃ pass, passes[run]? = some pass ∧ (pass.stage = .registered ∨ P run)
  | .reading none => recent ∨ skipped
  | _ => True

/-- What is known of a scan that has looked at the flag. -/
structure Follows (Q : Nat → Prop) (call : Nat) (clear known : Prop) (events since : List Event)
    (s : SharedTable) : Prop extends Since Q events since s where
  /-- All passes that run began since or were of some kind then. -/
  strict : ∀ run, s.Running run → Begun Q since run
  fresh : known → Recent events (Begun Q since)
  scan : ∃ c, s.calls[call]? = some c ∧ c.progress.Follows (Begun Q since) s.passes
    (Recent events (Begun Q since)) (clear ∧ .ask call ∉ since)

variable {call : Nat} {c : Call} {clear known : Prop}

/-- A pass that is not registered any more runs or has an outcome. -/
theorem running_of_open (hpass : s.passes[run]? = some pass) (hopen : s.flight.outcome? run = none) :
    pass.stage = .registered ∨ s.Running run := by
  by_cases hstage : pass.stage = .registered
  · exact .inl hstage
  · exact .inr ⟨pass, hpass, hstage, hopen⟩

/-- A caller that asks waits for a pass that does not run yet, or for one that runs. -/
theorem waiting_of_ask (h : s.Coherent) (hstep : s.step (.ask call) = some s') :
    ∃ pass, s'.passes[(s.flight.register () true).run]? = some pass ∧
      (pass.stage = .registered ∨ s.Running (s.flight.register () true).run) := by
  cases move_of_step hstep with
  | ask _ c hcall hprogress =>
    rcases s.flight.register_cases () true with
      ⟨hcurrent, hopen, hjoined, -, -⟩ | ⟨-, hrun, hstarted, -, -⟩
    · have hpass := List.getElem?_eq_getElem (h.known _ hcurrent)
      refine ⟨_, ?_, running_of_open hpass hopen⟩
      show (if (s.flight.register () true).started = true then _ else s.passes)[_]? = _
      rw [hjoined, if_neg nofun]
      exact hpass
    · refine ⟨⟨c.token, false, .registered⟩, ?_, .inl rfl⟩
      show (if (s.flight.register () true).started = true then s.passes ++ [_] else s.passes)[_]? = _
      rw [hstarted, if_pos rfl, hrun, ← h.length, List.getElem?_concat_length]

/-- A pass that a scan waits for is one of those that began since, or not begun. -/
theorem follows_waiting {P : Nat → Prop} (hstep : s.step event = some s')
    (hpass : s.passes[run]? = some pass) (h : pass.stage = .registered ∨ P run)
    (hbegin : event = .begin run → P run) :
    ∃ pass', s'.passes[run]? = some pass' ∧ (pass'.stage = .registered ∨ P run) := by
  obtain ⟨pass', hpass', hnext⟩ := next_of_step hstep hpass
  refine ⟨pass', hpass', ?_⟩
  rcases h with hstage | hrun
  · rcases hnext with rfl | hnext
    · exact .inl hstage
    · cases hnext with
      | begin => exact .inr (hbegin rfl)
      | build _ hstage' | callOff _ hstage' | fail _ hstage' | succeed _ hstage' | publish _ hstage'
        | stamp _ _ hstage' =>
        rw [hstage] at hstage'
        cases hstage'
  · exact .inr hrun

/-- What one event keeps of a scan that has looked at the flag. -/
theorem Follows.next (h : Follows Q call clear known events since s) (hstep : s.step event = some s') :
    Follows Q call clear known (events ++ [event]) (since ++ [event]) s' := by
  have hsince := h.toSince.next hstep
  have hrecent := h.toSince.recent hstep
  refine ⟨hsince, fun run hrun => ?_, fun hknown => hrecent (h.fresh hknown), ?_⟩
  · rcases hrun.before hstep with hran | rfl
    · exact (h.strict run hran).mono event
    · exact begun_concat.mpr (.inr rfl)
  · obtain ⟨c, hcall, hscan⟩ := h.scan
    rcases call_of_step hstep hcall with ⟨hcall', hask⟩ | ⟨progress, hcall', hnext⟩
    · -- The scan has not moved, but its pass may have.
      refine ⟨c, hcall', ?_⟩
      have hskipped : (clear ∧ .ask call ∉ since) → clear ∧ .ask call ∉ since ++ [event] :=
        And.imp_right fun hnot hmem => (List.mem_append.mp hmem).elim hnot
          fun hmem => hask (List.mem_singleton.mp hmem).symm
      revert hscan
      cases c.progress with
      | looking => exact id
      | timing => exact hskipped
      | waiting run started =>
        rintro ⟨pass, hpass, hrun⟩
        exact follows_waiting hstep hpass (hrun.imp_right fun hrun => hrun.mono event)
          fun hbegin => begun_concat.mpr (.inr hbegin)
      | reading failure =>
        cases failure with
        | none => exact Or.imp hrecent hskipped
        | some e => exact id
      | asking | deferring _ | answered _ | scanned _ _ | gone => exact id
    · refine ⟨c.to progress, hcall', ?_⟩
      show progress.Follows _ _ _ _
      cases hnext with
      | look hprogress =>
        rw [hprogress] at hscan
        exact hscan.elim
      | time now hprogress =>
        rw [hprogress] at hscan
        split
        · trivial
        · refine .inr ⟨hscan.1, fun hmem => ?_⟩
          rcases List.mem_append.mp hmem with hmem | hmem
          · exact hscan.2 hmem
          · cases List.mem_singleton.mp hmem
      | ask hprogress =>
        obtain ⟨pass, hpass, hstage⟩ := waiting_of_ask h.coherent hstep
        exact ⟨pass, hpass, hstage.imp_right fun hran => (h.strict _ hran).mono _⟩
      | collect run started outcome flight hprogress hfinish =>
        rw [hprogress] at hscan
        obtain ⟨pass, hpass, hrun⟩ := hscan
        obtain ⟨-, last, hlast, hok, -⟩ := Flight.finish_eq_some hfinish
        have hstage := h.coherent.told run pass last hpass hlast
        unfold SharedTable.next
        split
        · next snapshot =>
          split
          · -- The pass has ended with a snapshot, so it was one of the passes since.
            rw [hok snapshot rfl] at hstage
            have hrun := hrun.resolve_left (by simp [hstage])
            exact .inl (hrecent (h.last run pass hpass ⟨snapshot, .inr hstage⟩ hrun))
          · trivial
        · split
          · trivial
          · split <;> trivial
      | giveUp | defer | read | drop => trivial

/-- What is known of a pass that runs and has published: it was the last one to do so. -/
structure Latest (events since : List Event) (s : SharedTable) : Prop where
  coherent : s.Coherent
  last : ∀ run pass, s.passes[run]? = some pass → s.flight.outcome? run = none → pass.HasPublished →
    Recent events fun other => other = run

theorem Latest.next (h : Latest events since s) (hstep : s.step event = some s') :
    Latest (events ++ [event]) (since ++ [event]) s' := by
  refine ⟨h.coherent.step hstep, fun run pass' hpass' hopen hpublished => ?_⟩
  have hopen' := outcome?_eq_none_of_step hstep hopen
  have hkeep {pass : Pass} (hpass : s.passes[run]? = some pass) (hbefore : pass.HasPublished) :
      Recent (events ++ [event]) fun other => other = run := by
    refine (h.last run pass hpass hopen' hbefore).concat fun other hother => ?_
    subst hother
    obtain ⟨pass₂, hpass₂, -, hopen₂⟩ := running_of_publish h.coherent hstep
    exact h.coherent.unique hpass₂ hpass hopen₂ hopen'
  rcases pass_of_step hstep hpass' with hsame | ⟨-, hregistered⟩ | ⟨pass, hpass, hnext⟩
  · exact hkeep hsame hpublished
  · obtain ⟨snapshot, hstage | hstage⟩ := hpublished <;> rw [hregistered] at hstage <;> cases hstage
  · rcases hnext.hasPublished hpublished with hbefore | rfl
    · exact hkeep hpass hbefore
    · exact recent_publish rfl

/-- A scan that looks at the flag and reads in the end, without a failure, has read what is current
then, and has waited for a pass or found none to wait for. -/
theorem Follows.reads {more : List Event} {snapshot : Snapshot}
    (h : Follows Q call clear known events since s) (hsteps : s.steps (more ++ [.read call]) = some s')
    (hcall : s'.calls[call]? = some c) (hread : c.progress = .scanned snapshot none) :
    ∃ x, s.steps more = some x ∧ x.table.current = snapshot ∧
      Follows Q call clear known (events ++ more) (since ++ more) x ∧
      (Recent (events ++ more) (Begun Q (since ++ more)) ∨ clear ∧ .ask call ∉ since ++ more) := by
  rw [steps_append] at hsteps
  obtain ⟨x, hmore, hsteps⟩ := Option.bind_eq_some_iff.mp hsteps
  obtain ⟨_, hstep, hlast⟩ := Option.bind_eq_some_iff.mp hsteps
  cases hlast
  have hfollows := keeps_of_steps (R := Follows Q call clear known) Follows.next h hmore
  refine ⟨x, hmore, ?_⟩
  cases move_of_step hstep with
  | read _ failure c' hcall' hprogress =>
    change (x.calls.set call _)[call]? = some c at hcall
    rw [List.getElem?_set_self (List.getElem?_eq_some_iff.mp hcall').1] at hcall
    cases hcall
    obtain ⟨rfl, rfl⟩ := Progress.scanned.inj hread
    obtain ⟨c₂, hcall₂, hscan⟩ := hfollows.scan
    rw [hcall'] at hcall₂
    cases hcall₂
    rw [hprogress] at hscan
    exact ⟨rfl, hfollows, hscan⟩

end SourceTables.SharedTable

import SourceTables.Ledger.Overlap
import SourceTables.Proofs.Ledger.RoundTrip

/-!
# `SourceTables.Proofs.Ledger.Overlap`: saves that overlap

A save that notes the present count when nobody is in the middle of anything has written the present
records: a change that it did not see would have been counted since. But it need not have been the last to
write. Another save that took older records may have put its file in the place of the newer one before
either count was noted, and then the ledger has no changes and its file lags behind.

The invariant `Accounts` says what each count stands for, and `InOrder` that the last file written is the
last count noted, as long as no save writes while another one is about to note its count.

The theorems:

* `accounts_of_reaches`: whatever happens, a count stands for the records of that count.
* `file_of_reaches`: what the ledger file holds when nothing is in progress and there are no changes.
* `not_file_of_reaches`: two saves and a change after which the file lags behind.
-/

set_option autoImplicit false

namespace SourceTables.Overlap

variable {allowed : Overlap → Event → Prop} {s s' : Overlap} {caller : Nat} {e : Event} {l : Ledger}

/-! ### One caller -/

@[simp] theorem ledger_advance (s : Overlap) (caller : Nat) (p : Progress) :
    (s.advance caller p).ledger = s.ledger := rfl

@[simp] theorem written_advance (s : Overlap) (caller : Nat) (p : Progress) :
    (s.advance caller p).written = s.written := rfl

@[simp] theorem progress_advance (s : Overlap) (caller : Nat) (p : Progress) :
    (s.advance caller p).progress caller = p := Function.update_self ..

/-- The others are where they were. -/
theorem progress_advance_ne (s : Overlap) {caller other : Nat} (p : Progress) (h : other ≠ caller) :
    (s.advance caller p).progress other = s.progress other := Function.update_of_ne h ..

/-- What is known of a caller after a step: it is the one that came further, or was there before. -/
theorem of_progress_advance {other : Nat} {p p' : Progress}
    (h : (s.advance caller p).progress other = p') :
    (other = caller ∧ p = p') ∨ s.progress other = p' := by
  by_cases hother : other = caller
  · subst hother
    exact .inl ⟨rfl, (s.progress_advance other p).symm.trans h⟩
  · exact .inr ((s.progress_advance_ne p hother).symm.trans h)

/-- Steps that are allowed lead further when more are. -/
theorem Reaches.mono {allowed' : Overlap → Event → Prop} (hmono : ∀ s e, allowed s e → allowed' s e)
    (h : Reaches allowed s s') : Reaches allowed' s s' := by
  induction h with
  | refl => exact .refl
  | step _ hstep hallowed ih => exact ih.step hstep (hmono _ _ hallowed)

theorem Reaches.trans {s'' : Overlap} (h : Reaches allowed s s') (h' : Reaches allowed s' s'') :
    Reaches allowed s s'' := by
  induction h' with
  | refl => exact h
  | step _ hstep hallowed ih => exact ih.step hstep hallowed

/-- A change of the records that is counted at once is `Ledger.record`. -/
theorem reaches_record (hidle : s.Idle) (r : Record) :
    Reaches Orderly s { s with ledger := (s.ledger.record r).2 } := by
  have hrecord : Reaches Orderly s _ := .step .refl (.record r (hidle 0)) nofun
  have hbump := hrecord.step (.bump (progress_advance ..)) nofun
  have hback : Function.update (Function.update s.progress 0 .changed) 0 .idle = s.progress := by
    rw [Function.update_idem, ← hidle 0, Function.update_eq_self]
  rw [← hback]
  exact hbump

/-- A save that nobody comes in between of is `Ledger.save`. -/
theorem reaches_save (hidle : s.Idle) :
    Reaches Orderly s { s with
      ledger := s.ledger.endSave s.ledger.beginSave
      written := s.ledger.beginSave :: s.written } := by
  have hcount : Reaches Orderly s _ := .step .refl (.count (hidle 0)) nofun
  have htake := hcount.step (.take _ (progress_advance ..)) nofun
  have hrename := htake.step (.rename _ (progress_advance ..)) fun _ other save hother => by
    obtain ⟨-, hp⟩ | hother := of_progress_advance hother
    · cases hp
    · obtain ⟨-, hp⟩ | hother := of_progress_advance hother
      · cases hp
      · rw [hidle other] at hother
        cases hother
  have hstore := hrename.step (.store _ (progress_advance ..)) nofun
  have hback : Function.update (Function.update (Function.update (Function.update s.progress
      0 (.counted s.ledger.generation)) 0 (.taken s.ledger.beginSave))
      0 (.renamed s.ledger.beginSave)) 0 .idle = s.progress := by
    rw [Function.update_idem, Function.update_idem, Function.update_idem, ← hidle 0,
      Function.update_eq_self]
  rw [← hback]
  exact hstore

/-! ### What counts stand for -/

/-- Whether a save has been counted by now, and has taken the present records if its count is the present
one and all changes are counted. -/
structure Fresh (s : Overlap) (save : Ledger.Save) : Prop where
  counts : save.generation ≤ s.ledger.generation
  records : (∀ caller, s.progress caller ≠ .changed) → save.generation = s.ledger.generation →
    save.records = s.ledger.records

/-- Whether counts stand for the records of that count. -/
structure Accounts (s : Overlap) : Prop where
  counted : ∀ caller generation, s.progress caller = .counted generation →
    generation ≤ s.ledger.generation
  taken : ∀ caller save, s.progress caller = .taken save → s.Fresh save
  renamed : ∀ caller save, s.progress caller = .renamed save → save ∈ s.written
  written : ∀ save ∈ s.written, s.Fresh save
  saved : ∃ save ∈ s.written, save.generation = s.ledger.saved

/-- At the start the file holds the records. -/
theorem accounts_start (h : l.isDirty = false) : (start l).Accounts where
  counted := nofun
  taken := nofun
  renamed := nofun
  written save hsave := by
    rw [List.mem_singleton.mp hsave]
    exact ⟨Nat.le_refl _, fun _ _ => rfl⟩
  saved := ⟨_, .head _, bne_eq_false_iff_eq.mp h⟩

namespace Fresh

variable {save : Ledger.Save}

/-- While a change is not counted, nothing is said of the records. -/
theorem change (h : s.Fresh save) (caller : Nat) (m : LedgerMap) :
    ((s.withRecords m).advance caller .changed).Fresh save :=
  ⟨h.counts, fun hnone => absurd (progress_advance ..) (hnone caller)⟩

/-- Once it is counted, every earlier count is below the present one. -/
theorem bump (h : s.Fresh save) (caller : Nat) :
    Fresh ({ s with ledger := s.ledger.bump }.advance caller .idle) save :=
  ⟨Nat.le_succ_of_le h.counts, fun _ heq => absurd h.counts (by
    have hcount : save.generation = s.ledger.generation + 1 := heq
    omega)⟩

/-- A caller that has changed nothing leaves what is known of the records. -/
theorem advance (h : s.Fresh save) (hne : s.progress caller ≠ .changed) (p : Progress) :
    (s.advance caller p).Fresh save := by
  refine ⟨h.counts, fun hnone heq => h.records (fun other hother => ?_) heq⟩
  have hne' : other ≠ caller := by
    rintro rfl
    exact hne hother
  exact hnone other ((s.progress_advance_ne p hne').trans hother)

end Fresh

namespace Accounts

/-- A caller comes further with a count, records or a file that are accounted for, and whatever else is
counted or written stays accounted for. -/
theorem frame (h : s.Accounts) {l : Ledger} {p : Progress} (hsaved : l.saved = s.ledger.saved)
    (hgeneration : s.ledger.generation ≤ l.generation)
    (hfresh : ∀ save, s.Fresh save → ({ s with ledger := l }.advance caller p).Fresh save)
    (hcounted : ∀ generation, p = .counted generation → generation ≤ l.generation)
    (htaken : ∀ save, p = .taken save → ({ s with ledger := l }.advance caller p).Fresh save)
    (hrenamed : ∀ save, p = .renamed save → save ∈ s.written) :
    ({ s with ledger := l }.advance caller p).Accounts where
  counted other generation hother := by
    obtain ⟨-, hp⟩ | hother := of_progress_advance hother
    · exact hcounted generation hp
    · exact Nat.le_trans (h.counted other generation hother) hgeneration
  taken other save hother := by
    obtain ⟨-, hp⟩ | hother := of_progress_advance hother
    · exact htaken save hp
    · exact hfresh save (h.taken other save hother)
  renamed other save hother := by
    obtain ⟨-, hp⟩ | hother := of_progress_advance hother
    · exact hrenamed save hp
    · exact h.renamed other save hother
  written save hsave := hfresh save (h.written save hsave)
  saved := by
    obtain ⟨save, hsave, hnoted⟩ := h.saved
    exact ⟨save, hsave, hnoted.trans hsaved.symm⟩

/-- A change is not counted at once. -/
theorem change (h : s.Accounts) (caller : Nat) (m : LedgerMap) :
    ((s.withRecords m).advance caller .changed).Accounts :=
  h.frame rfl (Nat.le_refl _) (fun _ hsave => hsave.change caller m) nofun nofun nofun

/-- A change that is counted leaves all earlier counts behind. -/
theorem bump (h : s.Accounts) (caller : Nat) :
    Accounts ({ s with ledger := s.ledger.bump }.advance caller .idle) :=
  h.frame rfl (Nat.le_succ _) (fun _ hsave => hsave.bump caller) nofun nofun nofun

/-- A save comes further with a count, records or a file that are accounted for. -/
theorem advance (h : s.Accounts) (hne : s.progress caller ≠ .changed) {p : Progress}
    (hcounted : ∀ generation, p = .counted generation → generation ≤ s.ledger.generation)
    (htaken : ∀ save, p = .taken save → s.Fresh save)
    (hrenamed : ∀ save, p = .renamed save → save ∈ s.written) : (s.advance caller p).Accounts :=
  h.frame rfl (Nat.le_refl _) (fun _ hsave => hsave.advance hne p) hcounted
    (fun save hp => (htaken save hp).advance hne p) hrenamed

/-- A file that is put in the place of the ledger file holds records that are accounted for. -/
theorem write (h : s.Accounts) {save : Ledger.Save} (hsave : s.Fresh save) :
    Accounts { s with written := save :: s.written } where
  counted := h.counted
  taken caller save htaken := ⟨(h.taken caller save htaken).counts, (h.taken caller save htaken).records⟩
  renamed caller save hrenamed := .tail _ (h.renamed caller save hrenamed)
  written save' hsave' := by
    obtain rfl | hsave' := List.mem_cons.mp hsave'
    · exact ⟨hsave.counts, hsave.records⟩
    · exact ⟨(h.written save' hsave').counts, (h.written save' hsave').records⟩
  saved := by
    obtain ⟨noted, hmem, heq⟩ := h.saved
    exact ⟨noted, .tail _ hmem, heq⟩

/-- The count of a file that was written is noted. -/
theorem note (h : s.Accounts) {save : Ledger.Save} (hsave : save ∈ s.written) :
    Accounts { s with ledger := s.ledger.endSave save } where
  counted := h.counted
  taken caller save htaken := ⟨(h.taken caller save htaken).counts, (h.taken caller save htaken).records⟩
  renamed := h.renamed
  written save hsave := ⟨(h.written save hsave).counts, (h.written save hsave).records⟩
  saved := ⟨save, hsave, rfl⟩

/-- Whatever a caller does, counts stand for the records of that count. -/
theorem step (h : s.Accounts) (hstep : s.Step caller e s') : s'.Accounts := by
  have unchanged {p : Progress} (hp : s.progress caller = p) (hne : p ≠ .changed) :
      s.progress caller ≠ .changed := hp ▸ hne
  cases hstep with
  | record | remove => exact h.change caller _
  | bump => exact h.bump caller
  | count hp =>
    refine h.advance (unchanged hp nofun) (fun generation heq => ?_) nofun nofun
    cases heq
    exact Nat.le_refl _
  | take generation hp =>
    refine h.advance (unchanged hp nofun) nofun (fun save heq => ?_) nofun
    cases heq
    exact ⟨h.counted caller generation hp, fun _ _ => rfl⟩
  | rename save hp =>
    refine (h.write (h.taken caller save hp)).advance (unchanged hp nofun) nofun nofun fun save' heq => ?_
    cases heq
    exact .head _
  | fail save hp => exact h.advance (unchanged hp nofun) nofun nofun nofun
  | store save hp =>
    exact (h.note (h.renamed caller save hp)).advance (unchanged hp nofun) nofun nofun nofun

end Accounts

/-- Whatever the callers do, counts stand for the records of that count. -/
theorem accounts_of_reaches (hclean : l.isDirty = false) (h : Reaches allowed (start l) s) :
    s.Accounts := by
  induction h with
  | refl => exact accounts_start hclean
  | step _ hstep _ ih => exact ih.step hstep

/-! ### Saves that write in the order of their counts -/

/-- Whether the last file written is the last count noted, or is about to be noted. -/
structure InOrder (s : Overlap) : Prop where
  last : ∀ caller save, s.progress caller = .renamed save → s.written.head? = some save
  alone : ∀ caller caller' save save', s.progress caller = .renamed save →
    s.progress caller' = .renamed save' → caller' = caller
  noted : (∀ caller save, s.progress caller ≠ .renamed save) →
    ∃ save, s.written.head? = some save ∧ save.generation = s.ledger.saved

theorem inOrder_start (h : l.isDirty = false) : (start l).InOrder where
  last := nofun
  alone := nofun
  noted _ := ⟨_, rfl, bne_eq_false_iff_eq.mp h⟩

namespace InOrder

/-- A caller that has put no file in the place of the ledger file, and does not, leaves the order. -/
theorem advance (h : s.InOrder) {p : Progress} (hbefore : ∀ save, s.progress caller ≠ .renamed save)
    (hafter : ∀ save, p ≠ .renamed save) : (s.advance caller p).InOrder := by
  have before {other : Nat} {save : Ledger.Save}
      (hother : (s.advance caller p).progress other = .renamed save) :
      s.progress other = .renamed save :=
    (of_progress_advance hother).resolve_left fun heq => hafter save heq.2
  refine ⟨fun other save hother => h.last other save (before hother),
    fun other other' save save' hother hother' => h.alone _ _ _ _ (before hother) (before hother'),
    fun hnone => h.noted fun other save hother => ?_⟩
  have hne : other ≠ caller := by
    rintro rfl
    exact hbefore save hother
  exact hnone other save ((s.progress_advance_ne p hne).trans hother)

/-- An orderly step leaves the order. -/
theorem step (h : s.InOrder) (hstep : s.Step caller e s') (horderly : s.Orderly e) : s'.InOrder := by
  have unrenamed {p : Progress} (hp : s.progress caller = p) (hne : ∀ save, p ≠ .renamed save)
      (save : Ledger.Save) : s.progress caller ≠ .renamed save := hp ▸ hne save
  have changed (m : LedgerMap) : (s.withRecords m).InOrder := ⟨h.last, h.alone, h.noted⟩
  cases hstep with
  | record r hp | remove p hp => exact (changed _).advance (unrenamed hp nofun) nofun
  | bump hp =>
    have hcounted : InOrder { s with ledger := s.ledger.bump } := ⟨h.last, h.alone, h.noted⟩
    exact hcounted.advance (unrenamed hp nofun) nofun
  | count hp => exact h.advance (unrenamed hp nofun) nofun
  | take generation hp => exact h.advance (unrenamed hp nofun) nofun
  | fail save hp => exact h.advance (unrenamed hp nofun) nofun
  | rename save hp =>
    -- No other save is about to note its count, so that this one is alone.
    have only {other : Nat} {save' : Ledger.Save}
        (hother : (Overlap.advance { s with written := save :: s.written } caller (.renamed save)).progress
          other = .renamed save') : other = caller ∧ Progress.renamed save = .renamed save' :=
      (of_progress_advance hother).resolve_right (horderly rfl other save')
    refine ⟨fun other save' hother => ?_, fun other other' save save' hother hother' => ?_,
      fun hnone => absurd (progress_advance ..) (hnone caller save)⟩
    · cases (only hother).2
      rfl
    · exact (only hother').1.trans (only hother).1.symm
  | store save hp =>
    have nobody {other : Nat} {save' : Ledger.Save}
        (hother : (Overlap.advance { s with ledger := s.ledger.endSave save } caller .idle).progress other
          = .renamed save') : False := by
      obtain ⟨-, heq⟩ | hbefore := of_progress_advance hother
      · cases heq
      · obtain rfl := h.alone _ _ _ _ hp hbefore
        rw [progress_advance] at hother
        cases hother
    exact ⟨fun _ _ hother => (nobody hother).elim, fun _ _ _ _ hother => (nobody hother).elim,
      fun _ => ⟨save, h.last caller save hp, rfl⟩⟩

end InOrder

/-- As long as saves are orderly, the last file written is the last count noted. -/
theorem inOrder_of_reaches (hclean : l.isDirty = false) (h : Reaches Orderly (start l) s) :
    s.InOrder := by
  induction h with
  | refl => exact inOrder_start hclean
  | step _ hstep horderly ih => exact ih.step hstep horderly

/-! ### The ledger file -/

/-- When no call is in progress and there are no changes, the present records were written. The file holds
them unless the save that wrote last had an older count than the one that is noted, which cannot be if
saves are orderly. -/
theorem file_of_reaches (hclean : l.isDirty = false) (h : Reaches anyStep (start l) s)
    (hidle : s.Idle) (hs : s.ledger.isDirty = false) :
    (∃ save ∈ s.written, save.generation = s.ledger.saved ∧ save.records = s.ledger.records) ∧
    (s.file = s.ledger.records ∨
      ∃ save, s.written.head? = some save ∧ save.generation < s.ledger.saved) ∧
    (Reaches Orderly (start l) s → s.file = s.ledger.records) := by
  have haccounts := accounts_of_reaches hclean h
  have hsaved : s.ledger.generation = s.ledger.saved := bne_eq_false_iff_eq.mp hs
  have present (save : Ledger.Save) (hsave : save ∈ s.written)
      (hgeneration : save.generation = s.ledger.saved) : save.records = s.ledger.records := by
    refine (haccounts.written save hsave).records (fun caller hchanged => ?_)
      (hgeneration.trans hsaved.symm)
    rw [hidle caller] at hchanged
    cases hchanged
  have last {save : Ledger.Save} (hlast : s.written.head? = some save) :
      save ∈ s.written ∧ s.file = save.records := by
    obtain ⟨rest, hwritten⟩ := List.head?_eq_some_iff.mp hlast
    rw [Overlap.file, hwritten]
    exact ⟨.head _, rfl⟩
  obtain ⟨noted, hnoted, hgeneration⟩ := haccounts.saved
  refine ⟨⟨noted, hnoted, hgeneration, present noted hnoted hgeneration⟩, ?_, fun horderly => ?_⟩
  · obtain ⟨save, hlast⟩ : ∃ save, s.written.head? = some save := by
      cases hwritten : s.written with
      | nil =>
        rw [hwritten] at hnoted
        cases hnoted
      | cons save rest => exact ⟨save, rfl⟩
    obtain ⟨hsave, hfile⟩ := last hlast
    by_cases hcount : save.generation = s.ledger.saved
    · exact .inl (hfile.trans (present save hsave hcount))
    · have hle := (haccounts.written save hsave).counts
      exact .inr ⟨save, hlast, by omega⟩
  · obtain ⟨save, hlast, hcount⟩ := (inOrder_of_reaches hclean horderly).noted fun caller save hrenamed => by
      rw [hidle caller] at hrenamed
      cases hrenamed
    obtain ⟨hsave, hfile⟩ := last hlast
    exact hfile.trans (present save hsave hcount)

/-- After a record and a save the file holds the record. -/
theorem file_of_reaches_alone : ∃ s, Reaches anyStep (start (Ledger.initial ⟨"d"⟩)) s ∧
    s.file = s.ledger.records ∧ s.ledger.records = (Ledger.sample ⟨"d"⟩).records := by
  have hrecord := reaches_record (s := start (Ledger.initial ⟨"d"⟩)) (fun _ => rfl) Ledger.sampleRecord
  have hsave := hrecord.trans (reaches_save fun _ => rfl)
  have hany := hsave.mono fun _ _ _ => trivial
  exact ⟨_, hany, (file_of_reaches rfl hany (fun _ => rfl) rfl).2.2 hsave, rfl⟩

/-- A record of another source. -/
def otherRecord : Record :=
  { Ledger.sampleRecord with source := { Ledger.sampleRecord.source with path := ⟨"y.json"⟩ } }

/-- A save takes the records, a change follows, and another save takes the records and writes them. Then
the first one writes its own, and both note their counts: there are no changes, and the file lags behind. -/
theorem not_file_of_reaches : ∃ s, Reaches anyStep (start (Ledger.initial ⟨"d"⟩)) s ∧ s.Idle ∧
    s.ledger.isDirty = false ∧ s.file ≠ s.ledger.records := by
  have hfirst : Reaches anyStep (start (Ledger.initial ⟨"d"⟩)) _ :=
    (reaches_record (fun _ => rfl) Ledger.sampleRecord).mono fun _ _ _ => trivial
  -- The saves are those of callers 1 and 2, and the change is that of caller 3.
  have hcount := hfirst.step (@Step.count _ 1 rfl) trivial
  have htake := hcount.step (@Step.take _ 1 _ rfl) trivial
  have hchange := htake.step (@Step.record _ 3 otherRecord rfl) trivial
  have hbump := hchange.step (@Step.bump _ 3 rfl) trivial
  have hcount' := hbump.step (@Step.count _ 2 rfl) trivial
  have htake' := hcount'.step (@Step.take _ 2 _ rfl) trivial
  have hrename' := htake'.step (@Step.rename _ 2 _ rfl) trivial
  have hrename := hrename'.step (@Step.rename _ 1 _ rfl) trivial
  have hstore := hrename.step (@Step.store _ 1 _ rfl) trivial
  have hstore' := hstore.step (@Step.store _ 2 _ rfl) trivial
  refine ⟨_, hstore', fun caller => ?_, rfl, fun hfile => ?_⟩
  · obtain _ | _ | _ | _ | caller := caller <;> rfl
  · have hsize := congrArg Keyed.size hfile
    exact absurd hsize (by decide +kernel)

end SourceTables.Overlap

import SourceTables.Proofs.Artifact.Distinct
import SourceTables.Proofs.Workspace.Batch

/-!
# `SourceTables.Proofs.Workspace.Entries`: which entries of a ledger a conversion touches

A conversion that returns a record leaves it under the path of its source. A conversion that fails leaves
the entry that was there, and no conversion touches the entries of other sources.

The conversion of a columnar source writes nothing: it takes the fingerprint of the source as that of an
artifact. After a batch of such conversions all files are what they were, and each artifact that a record
names is a source, as recorded.

The theorems:

* `get?_ensure`: the ledger after a conversion, entry by entry.
* `get?_ensureEach_of_notMem`, `get?_of_mem_ensureEach`: the ledger after many.
* `of_mem_ensureEach`: each outcome is that of a conversion.
* `artifacts_ensureEach`: the artifacts of columnar sources after a batch.
-/

set_option autoImplicit false

namespace SourceTables

/-- The entry of a source after a conversion with some outcome. A path stays as it was written first. -/
def LedgerMap.entryAfter (m : LedgerMap) (p : Path) : Except Error Record → Option LedgerEntry
  | .ok r => some ⟨((m.get? p.components).map LedgerEntry.writtenAs).getD p, r⟩
  | .error _ => m.get? p.components

theorem LedgerMap.insertAt_eq (m : LedgerMap) (p : Path) (r : Record) : m.insertAt p r
    = m.insert p.components ⟨((m.get? p.components).map LedgerEntry.writtenAs).getD p, r⟩ := by
  unfold insertAt
  cases m.get? p.components <;> rfl

namespace Workspace

/-! ### One conversion -/

section

variable {w w' : Workspace} {fs fs' : Files} {p : Path} {result : Except Error Record}

/-- The records after a conversion: none is touched, or that of the source is new. -/
theorem records_ensure (hrun : w.ensure fs p = (result, w', fs')) :
    (w'.ledger = w.ledger ∧ ∀ r, result = .ok r → w.ledger.get? p = some r) ∨
      ∃ r, result = .ok r ∧ r.path = p ∧ w'.ledger = (w.ledger.record r).2 := by
  unfold ensure at hrun
  split at hrun
  · cases hrun
    exact .inl ⟨rfl, nofun⟩
  · next source hsource =>
    have hpath := Fingerprint.path_of_compute (compute_of_version hsource)
    cases ensureVersion_cases hrun with
    | unsupported | failed | unrecorded => exact .inl ⟨rfl, nofun⟩
    | current f r hf hr =>
      refine .inl ⟨rfl, fun r' hr' => ?_⟩
      cases hr'
      rw [← hpath, (of_current? hr).1]
    | converted f produced r fs₁ hf hr hconvert hrecord =>
      refine .inr ⟨r, rfl, ?_, ledger_enter _ _⟩
      exact (congrArg Fingerprint.path (of_recordOf hrecord).1).trans hpath

/-- The ledger after a conversion, entry by entry. -/
theorem get?_ensure (hrun : w.ensure fs p = (result, w', fs')) (key : List Component) :
    w'.ledger.records.get? key
      = if key = p.components then w.ledger.records.entryAfter p result
        else w.ledger.records.get? key := by
  obtain ⟨hledger, hcurrent⟩ | ⟨r, rfl, rfl, hledger⟩ := records_ensure hrun
  · rw [hledger]
    split
    · next hkey =>
      rw [hkey]
      cases result with
      | error e => rfl
      | ok r =>
        obtain ⟨e, he, rfl⟩ := Option.map_eq_some_iff.mp (hcurrent r rfl)
        rw [LedgerMap.entryAfter, he]
        rfl
    · rfl
  · rw [hledger]
    show (LedgerMap.insertAt _ _ _).get? key = _
    rw [LedgerMap.insertAt_eq, Keyed.get?_insert]
    rfl

end

/-- Saving a ledger does not change its records. -/
@[simp] theorem records_trySave (w : Workspace) (fs : Files) :
    (w.trySave fs).1.ledger.records = w.ledger.records := by
  unfold trySave save
  split
  · unfold Ledger.save
    dsimp only
    split <;> rfl
  · rfl

@[simp] theorem performed_trySave (w : Workspace) (fs : Files) :
    (w.trySave fs).1.performed = w.performed := by
  unfold trySave save
  split
  · cases w.ledger.save fs <;> rfl
  · rfl

/-! ### One after another -/

variable {w : Workspace} {fs : Files} {ps : List Path}

/-- Conversions do not touch the entries of other sources. -/
theorem get?_ensureEach_of_notMem {key : List Component} (hkey : key ∉ ps.map Path.components) :
    (w.ensureEach fs ps).2.1.ledger.records.get? key = w.ledger.records.get? key := by
  induction ps generalizing w fs with
  | nil => rfl
  | cons p rest ih =>
    rw [List.map_cons, List.mem_cons, not_or] at hkey
    refine (ih hkey.2).trans ?_
    rw [get?_ensure rfl, if_neg hkey.1]

/-- Each source of different ones has the entry that its own conversion leaves. -/
theorem get?_of_mem_ensureEach (hnodup : (ps.map Path.components).Nodup) {p : Path}
    {result : Except Error Record} (hmem : (p, result) ∈ (w.ensureEach fs ps).1) :
    (w.ensureEach fs ps).2.1.ledger.records.get? p.components
      = w.ledger.records.entryAfter p result := by
  induction ps generalizing w fs with
  | nil => cases hmem
  | cons q rest ih =>
    obtain ⟨hnew, hrest⟩ := List.nodup_cons.mp hnodup
    obtain hfirst | hmem := List.mem_cons.mp hmem
    · obtain ⟨rfl, rfl⟩ := Prod.mk.inj hfirst
      refine (get?_ensureEach_of_notMem hnew).trans ?_
      rw [get?_ensure rfl, if_pos rfl]
    · have hp : p ∈ rest := by
        rw [← map_fst_ensureEach (w.ensure fs q).2.1 (w.ensure fs q).2.2 hrest]
        exact List.mem_map_of_mem hmem
      have hother : p.components ≠ q.components := fun heq =>
        hnew (heq ▸ List.mem_map_of_mem hp)
      refine (ih hrest hmem).trans ?_
      unfold LedgerMap.entryAfter
      rw [get?_ensure rfl, if_neg hother]

/-- The outcome for a source is that of its conversion in the files that the pass has come to. -/
theorem of_mem_ensureEach {p : Path} {result : Except Error Record}
    (hmem : (p, result) ∈ (w.ensureEach fs ps).1) :
    ∃ (w₁ : Workspace) (tree : Files) (w₂ : Workspace) (fs₂ : Files), (p, tree) ∈ ps.zip (w.passed fs ps) ∧
      w₁.setup = w.setup ∧ w₁.ensure tree p = (result, w₂, fs₂) := by
  induction ps generalizing w fs with
  | nil => cases hmem
  | cons q rest ih =>
    obtain hfirst | hmem := List.mem_cons.mp hmem
    · obtain ⟨rfl, rfl⟩ := Prod.mk.inj hfirst
      exact ⟨w, fs, _, _, .head _, rfl, rfl⟩
    · obtain ⟨w₁, tree, w₂, fs₂, hfound, hsetup, hrun⟩ := ih hmem
      exact ⟨w₁, tree, w₂, fs₂, .tail _ hfound, hsetup.trans (setup_ensure rfl), hrun⟩

theorem setup_ensureEach (w : Workspace) (fs : Files) (ps : List Path) :
    (w.ensureEach fs ps).2.1.setup = w.setup := by
  induction ps generalizing w fs with
  | nil => rfl
  | cons p rest ih => exact (ih _ _).trans (setup_ensure rfl)

/-- Sources whose conversions change nothing are converted one after another without a change. -/
theorem ensureEach_eq_self {results : List (Path × Except Error Record)}
    (h : ∀ result ∈ results, w.ensure fs result.1 = (result.2, w, fs)) :
    w.ensureEach fs (results.map Prod.fst) = (results, w, fs) := by
  induction results with
  | nil => rfl
  | cons result rest ih =>
    rw [List.map_cons, ensureEach, h _ (.head _)]
    dsimp only
    rw [ih fun result hresult => h _ (.tail _ hresult)]

end Workspace

/-! ### Sources that are their own artifacts -/

/-- Whether the records of columnar sources name nothing but the source as an artifact. -/
def LedgerMap.Passthrough (m : LedgerMap) : Prop :=
  ∀ key e, m.get? key = some e → e.record.converter = Format.native.id →
    ∀ a ∈ e.record.artifacts, a.path.components = e.record.source.path.components

namespace Workspace

variable {w w' : Workspace} {fs fs' : Files} {p : Path} {r : Record}

/-- Whether an artifact is as recorded depends on where paths lead. -/
theorem isIntact_congr (h : fs'.stat = fs.stat) : isIntact fs' = isIntact fs := by
  funext a
  unfold isIntact Fingerprint.probe Fingerprint.compute
  rw [h]

theorem stat_tick (fs : Files) : fs.tick.stat = fs.stat := funext fs.stat_tick

/-- The format that is found for a columnar file. -/
theorem find?_of_accepts {registry : Registry} {f : Format} (hfind : registry.find? p = some f)
    (hp : Format.native.accepts p = true) : f = .native := by
  have haccepts := List.find?_some hfind
  exact Format.eq_of_accepts haccepts hp

/-- The converter of columnar files changes no file, and names the source. -/
theorem of_convert_native {destination : Destination} {options : ConvertOptions}
    {result : Except Error (List Produced)}
    (h : Format.native.convert fs p destination options = (result, fs')) :
    fs' = fs ∧ ∀ produced, result = .ok produced → ∀ out ∈ produced, out.artifact = p := by
  have hpassthrough : Format.native.isPassthrough = true := rfl
  unfold Format.convert at h
  rw [if_pos hpassthrough] at h
  split at h
  · cases h
    refine ⟨rfl, fun produced hproduced out hout => ?_⟩
    cases hproduced
    obtain rfl := List.mem_singleton.mp hout
    rfl
  · cases h
    exact ⟨rfl, nofun⟩

/-- A conversion of a columnar source leaves all files as they are. -/
theorem stat_ensure (hp : Format.native.accepts p = true) : (w.ensure fs p).2.2.stat = fs.stat := by
  cases hrun : w.ensure fs p with | mk result after =>
  obtain ⟨w', fs'⟩ := after
  unfold ensure at hrun
  split at hrun
  · cases hrun
    rfl
  · cases ensureVersion_cases hrun with
    | unsupported | current => rfl
    | failed f e _ hf _ hconvert =>
      obtain rfl := find?_of_accepts hf hp
      rw [(of_convert_native hconvert).1]
    | unrecorded f produced e _ hf _ hconvert =>
      obtain rfl := find?_of_accepts hf hp
      rw [(of_convert_native hconvert).1]
    | converted f produced r _ hf _ hconvert =>
      obtain rfl := find?_of_accepts hf hp
      rw [(of_convert_native hconvert).1]
      exact stat_tick fs

/-- The artifacts of a record that is returned are as recorded. -/
theorem intact_of_ensure (hrun : w.ensure fs p = (.ok r, w', fs')) {a : ArtifactRef}
    (ha : a ∈ r.artifacts) : isIntact fs' a = true := by
  unfold ensure at hrun
  split at hrun
  · cases hrun
  · cases ensureVersion_cases hrun with
    | current f _ hf hr =>
      obtain ⟨-, -, -, -, hintact⟩ := of_current? hr
      exact hintact a ha
    | converted f produced _ _ hf hr hconvert hrecord =>
      obtain ⟨-, -, -, -, hrefs⟩ := of_recordOf hrecord
      obtain ⟨out, -, href⟩ := Outcome.exists_of_forall₂ hrefs.flip ha
      exact isIntact_of_compute ((Fingerprint.compute_tick ..).trans (of_reference href).2)

/-- A record of a columnar source that is returned names nothing but the source. -/
theorem path_of_ensure (hledger : w.ledger.records.Passthrough) (hrun : w.ensure fs p = (.ok r, w', fs'))
    (hnative : r.converter = Format.native.id) {a : ArtifactRef} (ha : a ∈ r.artifacts) :
    a.path.components = p.components ∧ r.source.path.components = p.components := by
  unfold ensure at hrun
  split at hrun
  · cases hrun
  · next source hsource =>
    have hpath := Fingerprint.path_of_compute (compute_of_version hsource)
    cases ensureVersion_cases hrun with
    | current f _ hf hr =>
      obtain ⟨hget, hsame, -⟩ := of_current? hr
      obtain ⟨e, he, rfl⟩ := Option.map_eq_some_iff.mp hget
      have hcomponents := (Fingerprint.same_iff.mp hsame).1
      rw [hpath] at hcomponents
      exact ⟨(hledger _ e he hnative a ha).trans hcomponents, hcomponents⟩
    | converted f produced _ _ hf hr hconvert hrecord =>
      obtain ⟨hrsource, hid, -, -, hrefs⟩ := of_recordOf hrecord
      obtain rfl : f = .native := Format.id_injective (hid.symm.trans hnative)
      obtain ⟨out, hout, href⟩ := Outcome.exists_of_forall₂ hrefs.flip ha
      rw [(of_reference href).1, (of_convert_native hconvert).2 _ rfl out hout, hrsource, hpath]
      exact ⟨rfl, rfl⟩

/-- A conversion records columnar sources in this way only. -/
theorem passthrough_ensure (hledger : w.ledger.records.Passthrough) :
    (w.ensure fs p).2.1.ledger.records.Passthrough := by
  intro key e he hnative a ha
  cases hrun : w.ensure fs p with | mk result after =>
  rw [hrun] at he
  rw [get?_ensure hrun] at he
  split at he
  · cases result with
    | error cause => exact hledger _ e he hnative a ha
    | ok r =>
      cases he
      obtain ⟨hpath, hsource⟩ := path_of_ensure hledger hrun hnative ha
      exact hpath.trans hsource.symm
  · exact hledger key e he hnative a ha

/-- Conversions of columnar sources leave all files as they are, and each artifact that their records name
is the source, as recorded. -/
theorem artifacts_ensureEach {ps : List Path} (hnative : ∀ p ∈ ps, Format.native.accepts p = true)
    (hledger : w.ledger.records.Passthrough) :
    (w.ensureEach fs ps).2.2.stat = fs.stat ∧
      ∀ (p : Path) (r : Record), (p, .ok r) ∈ (w.ensureEach fs ps).1 → ∀ a ∈ r.artifacts,
        a.path.components = p.components ∧ isIntact fs a = true := by
  induction ps generalizing w fs with
  | nil => exact ⟨rfl, nofun⟩
  | cons q rest ih =>
    have hq := @stat_ensure w fs q (hnative q (.head _))
    obtain ⟨hstat, hrest⟩ := @ih (w.ensure fs q).2.1 (w.ensure fs q).2.2 (fun p hp => hnative p (.tail _ hp))
      (passthrough_ensure hledger)
    refine ⟨hstat.trans hq, fun p r hmem a ha => ?_⟩
    rw [← isIntact_congr hq]
    obtain hfirst | hmem := List.mem_cons.mp hmem
    · obtain ⟨rfl, hresult⟩ := Prod.mk.inj hfirst
      have hrun : w.ensure fs p = (.ok r, (w.ensure fs p).2) := Prod.ext hresult.symm rfl
      obtain ⟨-, -, -, f, hf, hid, -⟩ := get?_of_ensure hrun
      obtain rfl := find?_of_accepts hf (hnative p (.head _))
      exact ⟨(path_of_ensure hledger hrun hid ha).1, intact_of_ensure hrun ha⟩
    · exact hrest p r hmem a ha

end Workspace

end SourceTables

import SourceTables.Proofs.LiveTable.Rows
import SourceTables.Proofs.LiveTable.Same
import SourceTables.Proofs.Workspace.Edited
import SourceTables.Proofs.Workspace.Entries

/-!
# `SourceTables.Proofs.LiveTable.Unchanged`: a second pass over unchanged sources

A pass whose sources, layout and artifacts are those that the pass before it has left finds the records of
that pass, so that nothing is converted and the candidate is the same but for its time. Whether the
snapshot stays then depends on the candidate agreeing with itself, which it does unless the value of a
partition is a NaN. Values come from names of directories, and a name can say so.

A pass may change what it has read: a source can lead to its own artifact or to the ledger file.

The theorems:

* `columns_again`: the columns are taken over from the current snapshot.
* `candidate_again`: the second pass has the candidate of the first.
* `refreshed_again`: the snapshot stays just when no directory names a NaN.
-/

set_option autoImplicit false

namespace SourceTables

open Workspace (isIntact)

/-! ### Snapshots that were built -/

namespace Snapshot

/-- Whether a snapshot is put together as passes do it. Time zero stands for no pass yet. -/
structure Built (s : Snapshot) : Prop where
  schema : s.schema = s.dataSchema ++ keyColumns s.keys
  data : dataColumns s.keys s.dataSchema = s.dataSchema
  unknown : s.builtAt = 0 → s = empty

theorem built_empty : empty.Built := ⟨rfl, rfl, fun _ => rfl⟩

theorem built_build (keys : List PartitionKey) (partitions : List PartitionEntry) (m : LedgerMap)
    (columns : Schema) {now : Nat} (hnow : 0 < now) : (build keys partitions m columns now).Built :=
  ⟨rfl, dataColumns_dataColumns keys columns, fun h => absurd h (Nat.ne_of_gt hnow)⟩

/-- Snapshots that show the same are made of the same data columns. -/
theorem Built.data_of_sameContent {a b : Snapshot} (ha : a.Built) (hb : b.Built)
    (h : a.sameContent b = true) : a.dataSchema = b.dataSchema := by
  obtain ⟨hkeys, hschema, -⟩ := of_sameContent h
  rw [ha.schema, hb.schema, hkeys] at hschema
  exact List.append_cancel_right hschema

/-- Snapshots that show the same read the same artifacts. -/
theorem sameSelection_of_sameContent {a b : Snapshot} (h : a.sameContent b = true) :
    LiveTable.sameSelection a b.keys b.partitions = true := by
  simp only [sameContent, sameEntries, sameEntry, Bool.and_eq_true, beq_iff_eq, List.all_eq_true] at h
  obtain ⟨⟨⟨hkeys, hlength, hentries⟩, -⟩, -⟩ := h
  simp only [LiveTable.sameSelection, Bool.and_eq_true, beq_iff_eq, List.all_eq_true]
  exact ⟨⟨hkeys, hlength⟩, fun pair hpair => (hentries pair hpair).2⟩

/-- A snapshot reads the same artifacts as itself. -/
theorem sameSelection_self (s : Snapshot) : LiveTable.sameSelection s s.keys s.partitions = true := by
  unfold LiveTable.sameSelection
  rw [beq_self_eq_true, Bool.true_and]
  exact lists_self_iff.mpr fun entry _ => Record.sameArtifacts_self entry.artifacts

end Snapshot

/-! ### Directories that name a NaN -/

/-- Whether a directory of a layout names a NaN as the value of a key whose values are numbers. -/
def Layout.NamesNaN (layout : Layout) : Prop :=
  ∃ p ∈ layout.partitions, ∃ chain, p.Spells layout.keys chain ∧
    ∃ value ∈ chain.zip layout.keys, value.2.type = .decimal ∧ Number.namesNaN value.1.value = true

/-- A partition has a NaN for a value just when its directory names one. -/
theorem Partition.Spells.definite_iff {keys : List PartitionKey} {p : Partition} {chain : Chain}
    (h : p.Spells keys chain) : p.Definite ↔ ∀ value ∈ chain.zip keys,
      value.2.type = .decimal → Number.namesNaN value.1.value = false := by
  unfold Definite
  rw [h.values, ← List.map_uncurry_zip_eq_zipWith, List.forall_mem_map]
  refine forall₂_congr fun value _ => ?_
  show (Literal.parse value.1.value value.2.type).isNaN = false ↔ _
  rw [Literal.isNaN_parse]
  simp

/-- The partitions that are found have no NaN for a value just when no directory names one. -/
theorem Detection.definite_iff {d : Detection} {fs : Files} {root : Path} {layout : Layout}
    (hnamed : fs.WellNamed) (h : d.detect fs root = .ok layout) :
    (∀ p ∈ layout.partitions, p.Definite) ↔ ¬ layout.NamesNaN := by
  obtain ⟨_, -, hcovers, -⟩ := of_detect hnamed h
  constructor
  · rintro hdefinite ⟨p, hp, chain, hchain, value, hvalue, htype, hnames⟩
    rw [hchain.definite_iff.mp (hdefinite p hp) value hvalue htype] at hnames
    cases hnames
  · intro hnames p hp
    obtain ⟨chain, hchain⟩ := hcovers.spelled p hp
    refine hchain.definite_iff.mpr fun value hvalue htype => Bool.eq_false_iff.mpr fun hnan => ?_
    exact hnames ⟨p, hp, chain, hchain, value, hvalue, htype, hnan⟩

namespace LiveTable

/-- A partition of a directory's table shows the first artifacts of its files. -/
theorem selectPartition_eq {t : LiveTable} {root : Path} (horigin : t.origin = .directory root)
    (m : LedgerMap) (p : Partition) : t.selectPartition m p
      = .ok ⟨p, (p.files.filterMap fun file =>
          (m.get? file.components).map LedgerEntry.record).map Record.primary⟩ := by
  have hselect : t.selectArtifact = fun r => .ok r.primary := by
    funext r
    unfold selectArtifact
    rw [horigin]
    rfl
  unfold selectPartition
  rw [hselect]
  generalize p.files.filterMap _ = records
  have hall : records.mapM (fun r => (Except.ok r.primary : Except Error ArtifactRef))
      = .ok (records.map Record.primary) :=
    Outcome.mapM_eq_ok.mpr (List.forall₂_map_right_iff.mpr (List.forall₂_same.mpr fun _ _ => rfl))
  exact Outcome.bind_eq_ok.mpr ⟨_, hall, rfl⟩

/-- The end of a pass with a candidate. -/
theorem finishPass_ok (t : LiveTable) (w : Workspace) (fs : Files) (wasStale : Bool) (s : Snapshot) :
    (t.finishPass w fs wasStale (.ok s)).1 = .ok (!t.current.sameContent s) ∧
      (t.finishPass w fs wasStale (.ok s)).2.1.current
        = (if t.current.sameContent s then t.current else s) ∧
      (t.finishPass w fs wasStale (.ok s)).2.2 = w.trySave fs := by
  unfold finishPass endPass
  dsimp only
  cases t.current.sameContent s <;> exact ⟨rfl, rfl, rfl⟩

end LiveTable

namespace Session

/-! ### Two passes -/

/-- What a pass that nobody calls off has for an outcome, and the session after it. -/
def refreshed (x : Session) : Except Error Bool × Session :=
  let (outcome, t, w, fs) := x.table.refresh x.workspace x.files LiveTable.uninterrupted
  (outcome, ⟨t, w, fs⟩)

/-- Whether a pass has left what it has read and made: its layout is found again, each source is the version
that the pass has found, and the artifacts of all its records are as they were recorded. -/
structure Unchanged (x x' : Session) : Prop where
  layout : ∀ layout, x.table.origin.layout x.detection x.files = .ok layout →
    x'.table.origin.layout x'.detection x'.files = .ok layout
  sources : ∀ layout, x.table.origin.layout x.detection x.files = .ok layout →
    ∀ found ∈ x.found layout, ∀ before, x.workspace.version found.2 found.1 = .ok before →
      ∃ now, x.workspace.version x'.files found.1 = .ok now ∧ before.same now = true
  artifacts : ∀ s, x.candidate.1 = .ok s → ∀ e ∈ s.conversions.values, ∀ a ∈ e.record.artifacts,
    isIntact x'.files a = true

variable {x x' : Session} {swapped : Bool}

theorem finishPass_of_refreshed {outcome : Except Error Bool} (h : x.refreshed = (outcome, x')) :
    ({ x.table with stale := false } : LiveTable).finishPass x.candidate.2.1 x.candidate.2.2 x.table.stale
      x.candidate.1 = (outcome, x'.table, x'.workspace, x'.files) := by
  unfold refreshed at h
  obtain ⟨houtcome, hsession⟩ := Prod.mk.inj h
  rw [← hsession]
  exact Prod.ext houtcome rfl

/-- A pass that succeeds has a candidate, and keeps the current snapshot if that shows the same. -/
theorem of_refreshed (h : x.refreshed = (.ok swapped, x')) :
    ∃ s, x.candidate.1 = .ok s ∧ x'.table.origin = x.table.origin ∧
      swapped = (!x.table.current.sameContent s) ∧
      x'.table.current = (if x.table.current.sameContent s then x.table.current else s) ∧
      (x'.workspace, x'.files) = x.candidate.2.1.trySave x.candidate.2.2 := by
  have hrun := finishPass_of_refreshed h
  obtain ⟨horigin, -⟩ := LiveTable.finishPass_cases hrun
  cases hbuilt : x.candidate.1 with
  | error e =>
    rw [hbuilt] at hrun
    cases hrun
  | ok s =>
    rw [hbuilt] at hrun
    obtain ⟨houtcome, hcurrent, hafter⟩ :=
      LiveTable.finishPass_ok { x.table with stale := false } x.candidate.2.1 x.candidate.2.2 x.table.stale s
    rw [hrun] at houtcome hcurrent hafter
    exact ⟨s, rfl, horigin, Except.ok.inj houtcome, hcurrent, hafter⟩

/-- A candidate is put together of what its conversions have returned. -/
theorem assemble_of_candidate {s : Snapshot} (h : x.candidate.1 = .ok s) :
    ∃ layout results fs, x.table.assemble fs LiveTable.uninterrupted layout results = .ok s ∧
      x.candidate.2.2 = fs.tick ∧ x.files.clock ≤ fs.clock ∧
      x.table.origin.layout x.detection x.files = .ok layout := by
  unfold candidate LiveTable.candidate at h ⊢
  cases hlayout : x.table.origin.layout (x.workspace.detection x.table.maxDepth) x.files with
  | error e =>
    rw [hlayout] at h
    cases h
  | ok layout =>
    rw [hlayout] at h
    exact ⟨layout, _, _, h, rfl, Workspace.clock_ensureAll .., hlayout⟩

/-- A candidate is put together as passes do it. -/
theorem built_candidate (hclock : 0 < x.files.clock) {s : Snapshot} (h : x.candidate.1 = .ok s) :
    s.Built := by
  obtain ⟨layout, results, fs, hassemble, -, hlater, -⟩ := assemble_of_candidate h
  obtain ⟨-, partitions, columns, -, -, rfl⟩ := LiveTable.assemble_eq_ok.mp hassemble
  exact Snapshot.built_build _ _ _ _ (Nat.lt_of_lt_of_le hclock hlater)

/-- Passes put snapshots together in this way. -/
theorem built_refreshed (hclock : 0 < x.files.clock) (hbuilt : x.table.current.Built) :
    x.refreshed.2.table.current.Built := by
  cases h : x.refreshed with | mk outcome x' =>
  cases outcome with
  | ok swapped =>
    obtain ⟨s, hs, -, -, hcurrent, -⟩ := of_refreshed h
    show x'.table.current.Built
    rw [hcurrent]
    split
    · exact hbuilt
    · exact built_candidate hclock hs
  | error e =>
    obtain ⟨-, ⟨_, -, -, hcurrent, -⟩ | ⟨_, _, -, houtcome, -⟩⟩ :=
      LiveTable.finishPass_cases (finishPass_of_refreshed h)
    · show x'.table.current.Built
      rw [hcurrent]
      exact hbuilt
    · cases houtcome

/-! ### The second pass -/

section

variable {layout : Layout} {s : Snapshot}

/-- The conversions of a second pass over unchanged sources find the records of the first, and change
nothing. -/
theorem Unchanged.ensure (hunchanged : x.Unchanged x')
    (hlayout : x.table.origin.layout x.detection x.files = .ok layout)
    (hnodup : (layout.files.map Path.components).Nodup) (hbuilt : x.candidate.1 = .ok s)
    (hafter : (x'.workspace, x'.files) = x.candidate.2.1.trySave x.candidate.2.2)
    {result : Path × Except Error Record}
    (hresult : result ∈ (x.workspace.ensureEach x.files layout.files).1) :
    x'.workspace.ensure x'.files result.1 = (result.2, x'.workspace, x'.files) := by
  obtain ⟨p, outcome⟩ := result
  have hcandidate := LiveTable.candidate_eq hlayout hnodup
  change x.candidate = _ at hcandidate
  have hworkspace : x'.workspace = (x.candidate.2.1.trySave x.candidate.2.2).1 := congrArg Prod.fst hafter
  rw [hcandidate] at hworkspace
  have hassemble := hbuilt
  rw [hcandidate] at hassemble
  obtain ⟨hall, partitions, columns, -, -, hs⟩ := LiveTable.assemble_eq_ok.mp hassemble
  obtain ⟨r, rfl⟩ : ∃ r, outcome = .ok r := hall _ hresult
  obtain ⟨w₁, tree, w₂, fs₂, hfound, hsetup, hrun⟩ := Workspace.of_mem_ensureEach hresult
  have hsetup' : x'.workspace.setup = w₁.setup := by
    rw [hworkspace, Workspace.setup_trySave, Workspace.setup_ensureEach, hsetup]
  have hget : x'.workspace.ledger.get? p = some r := by
    rw [hworkspace, Ledger.get?, Workspace.records_trySave,
      Workspace.get?_of_mem_ensureEach hnodup hresult]
    rfl
  obtain ⟨-, -, hisOf, -⟩ := Workspace.get?_of_ensure hrun
  rw [Workspace.again_iff hrun hsetup' hget]
  constructor
  · obtain ⟨before, hbefore, hsame⟩ := Workspace.isOf_iff.mp hisOf
    rw [Workspace.version_of_setup hsetup] at hbefore
    obtain ⟨now, hnow, hstill⟩ := hunchanged.sources layout hlayout _ hfound before hbefore
    rw [← Workspace.version_of_setup hsetup] at hnow
    exact Workspace.isOf_iff.mpr ⟨now, hnow, Fingerprint.same_trans hsame hstill⟩
  · intro a ha
    have hkeys := Workspace.nodup_ensureEach x.workspace x.files hnodup
    obtain ⟨writtenAs, hentry⟩ := LiveTable.get?_conversions hkeys hresult
    refine hunchanged.artifacts s hbuilt ⟨writtenAs, r⟩ ?_ a ha
    rw [← hs]
    exact List.mem_map_of_mem (Keyed.mem_of_get? hentry)

/-- The columns of the second candidate are those of the first. -/
theorem columns_again (hclock : 0 < x.files.clock) (hcurrent : x.table.current.Built)
    (hbuilt : x.candidate.1 = .ok s)
    (hkept : x'.table.current = (if x.table.current.sameContent s then x.table.current else s)) :
    ∃ columns, x'.table.columns x'.files s.keys s.partitions = .ok columns ∧
      Snapshot.dataColumns s.keys columns = s.dataSchema := by
  have hs := built_candidate hclock hbuilt
  have hdata : x'.table.current.Built ∧ x'.table.current.dataSchema = s.dataSchema ∧
      LiveTable.sameSelection x'.table.current s.keys s.partitions = true := by
    rw [hkept]
    split
    · next hsame =>
      exact ⟨hcurrent, hcurrent.data_of_sameContent hs hsame, Snapshot.sameSelection_of_sameContent hsame⟩
    · exact ⟨hs, rfl, s.sameSelection_self⟩
  obtain ⟨hbuilt', hdata, hselection⟩ := hdata
  unfold LiveTable.columns
  by_cases hknown : x'.table.current.builtAt = 0
  · -- Before any pass there was nothing to select, so that there are no columns to read.
    rw [hbuilt'.unknown hknown] at hselection hdata ⊢
    have hpartitions : s.partitions = [] := by
      simp only [LiveTable.sameSelection, Bool.and_eq_true, beq_iff_eq] at hselection
      exact List.length_eq_zero_iff.mp hselection.1.2.symm
    refine ⟨[], ?_, hdata⟩
    rw [hpartitions]
    exact if_neg (by simp [Snapshot.empty])
  · refine ⟨x'.table.current.dataSchema, if_pos ?_, ?_⟩
    · rw [hselection, Bool.true_and]
      exact bne_iff_ne.mpr hknown
    · rw [hdata, hs.data]

/-- The second pass has the candidate of the first, built later. -/
theorem candidate_again {root : Path} (horigin : x.table.origin = .directory root)
    (hnamed : x.files.WellNamed) (hclock : 0 < x.files.clock) (hcurrent : x.table.current.Built)
    (h : x.refreshed = (.ok swapped, x')) (hunchanged : x.Unchanged x') (hbuilt : x.candidate.1 = .ok s) :
    x'.candidate
      = (.ok { s with builtAt := x'.files.clock }, x'.workspace, x'.files.tick) := by
  obtain ⟨s', hs', horigin', -, hkept, hafter⟩ := of_refreshed h
  obtain rfl : s' = s := Except.ok.inj (hs'.symm.trans hbuilt)
  cases hlayout : x.table.origin.layout x.detection x.files with
  | error e =>
    unfold candidate at hbuilt
    rw [LiveTable.candidate_of_error hlayout] at hbuilt
    cases hbuilt
  | ok layout =>
    have hdetect := hlayout
    rw [horigin] at hdetect
    obtain ⟨-, -, -, hnodup⟩ := Detection.of_detect hnamed hdetect
    have hresults := Workspace.ensureEach_eq_self fun result hresult =>
      hunchanged.ensure hlayout hnodup hbuilt hafter hresult
    rw [Workspace.map_fst_ensureEach _ _ hnodup] at hresults
    have hsecond := LiveTable.candidate_eq (hunchanged.layout layout hlayout) hnodup
    rw [hresults] at hsecond
    refine hsecond.trans ?_
    have hfirst := hbuilt
    rw [candidate, LiveTable.candidate_eq hlayout hnodup] at hfirst
    obtain ⟨hall, partitions, columns, hpartitions, hcolumns, hs⟩ := LiveTable.assemble_eq_ok.mp hfirst
    obtain ⟨columns', hcolumns', hdata⟩ := columns_again hclock hcurrent hbuilt hkept
    have hassemble : x'.table.assemble x'.files LiveTable.uninterrupted layout
        (x.workspace.ensureEach x.files layout.files).1 = .ok { s' with builtAt := x'.files.clock } := by
      refine LiveTable.assemble_eq_ok.mpr ⟨hall, partitions, columns', ?_, ?_, ?_⟩
      · rw [← hpartitions]
        congr 1
        funext p
        rw [LiveTable.selectPartition_eq horigin, LiveTable.selectPartition_eq (horigin'.trans horigin)]
      · rw [← hs] at hcolumns'
        exact hcolumns'
      · rw [← hs] at hdata ⊢
        have hsame : Snapshot.dataColumns layout.keys columns' = Snapshot.dataColumns layout.keys columns :=
          hdata
        unfold Snapshot.build
        rw [hsame]
    rw [hassemble]

/-- A candidate has the partitions of the layout that its pass has found. -/
theorem partitions_candidate {root : Path} (horigin : x.table.origin = .directory root)
    (hbuilt : x.candidate.1 = .ok s) :
    ∃ layout, x.detection.detect x.files root = .ok layout ∧
      s.partitions.map PartitionEntry.partition = layout.partitions := by
  obtain ⟨layout, results, fs, hassemble, -, -, hlayout⟩ := assemble_of_candidate hbuilt
  rw [horigin] at hlayout
  obtain ⟨-, partitions, columns, hpartitions, -, rfl⟩ := LiveTable.assemble_eq_ok.mp hassemble
  refine ⟨layout, hlayout, ?_⟩
  rw [← List.forall₂_eq_eq_eq]
  refine List.forall₂_map_left_iff.mpr ((Outcome.mapM_eq_ok.mp hpartitions).flip.imp fun entry p h => ?_)
  have hentry := (LiveTable.selectPartition_eq horigin _ p).symm.trans h
  rw [← Except.ok.inj hentry]

/-- A pass over what the pass before it has left converts nothing. It has the same candidate, which shows
the same as the current snapshot, so that this one stays, just when no directory names a NaN. -/
theorem refreshed_again {root : Path} (horigin : x.table.origin = .directory root)
    (hnamed : x.files.WellNamed) (hclock : 0 < x.files.clock) (hcurrent : x.table.current.Built)
    (h : x.refreshed = (.ok swapped, x')) (hunchanged : x.Unchanged x') :
    Agreement Snapshot.sameContent ∧ (∀ s : Snapshot, s.sameContent s = true ↔ s.Definite) ∧
      ∃ layout s, x.detection.detect x.files root = .ok layout ∧
        x'.candidate = (.ok s, x'.workspace, x'.files.tick) ∧
        x'.refreshed.2.workspace.performed = x'.workspace.performed ∧
        (x'.table.current.sameContent s = true ↔ ¬ layout.NamesNaN) ∧
        (¬ layout.NamesNaN → x'.refreshed.1 = .ok false ∧
          x'.refreshed.2.table.current = x'.table.current) ∧
        (layout.NamesNaN → x'.refreshed.1 = .ok true ∧ x'.refreshed.2.table.current = s) := by
  obtain ⟨s, hbuilt, -, -, hkept, -⟩ := of_refreshed h
  obtain ⟨layout, hdetect, hpartitions⟩ := partitions_candidate horigin hbuilt
  have hdefinite : s.Definite ↔ ¬ layout.NamesNaN := by
    rw [← Detection.definite_iff hnamed hdetect, ← hpartitions, Snapshot.Definite]
    simp only [List.forall_mem_map]
  have hagain := candidate_again horigin hnamed hclock hcurrent h hunchanged hbuilt
  have hsame : x'.table.current.sameContent s = true ↔ ¬ layout.NamesNaN := by
    rw [hkept, ← hdefinite]
    split
    · next hsame =>
      have hself := Snapshot.agreement_sameContent.trans (Snapshot.agreement_sameContent.symm hsame) hsame
      exact iff_of_true hsame (Snapshot.sameContent_self_iff.mp hself)
    · exact Snapshot.sameContent_self_iff
  cases hsecond : x'.refreshed with | mk outcome x'' =>
  have hfinish := finishPass_of_refreshed hsecond
  rw [hagain] at hfinish
  obtain ⟨houtcome, hcurrent', hafter⟩ := LiveTable.finishPass_ok
    { x'.table with stale := false } x'.workspace x'.files.tick x'.table.stale
    { s with builtAt := x'.files.clock }
  rw [hfinish] at houtcome hcurrent' hafter
  -- When a snapshot was built makes no difference to what it shows.
  have hlater : ({ x'.table with stale := false } : LiveTable).current.sameContent
      { s with builtAt := x'.files.clock } = x'.table.current.sameContent s := rfl
  rw [hlater] at houtcome hcurrent'
  refine ⟨Snapshot.agreement_sameContent, fun _ => Snapshot.sameContent_self_iff, layout,
    { s with builtAt := x'.files.clock }, hdetect, hagain, ?_, hsame, fun hnames => ?_, fun hnames => ?_⟩
  · have hworkspace : x''.workspace = (x'.workspace.trySave x'.files.tick).1 := congrArg Prod.fst hafter
    show x''.workspace.performed = _
    rw [hworkspace, Workspace.performed_trySave]
  · rw [hsame.mpr hnames] at houtcome hcurrent'
    exact ⟨houtcome, hcurrent'⟩
  · rw [Bool.eq_false_iff.mpr fun hcheck => hsame.mp hcheck hnames] at houtcome hcurrent'
    exact ⟨houtcome, hcurrent'⟩

end

/-! ### Two passes over one directory -/

/-- Whether a pass has left everything as it is, looked up. -/
def unchanged (x x' : Session) : Bool :=
  match x.table.origin.layout x.detection x.files with
  | .error _ => true
  | .ok layout =>
    (match x'.table.origin.layout x'.detection x'.files with
      | .error _ => false
      | .ok again => again = layout)
    && ((x.found layout).all fun found => match x.workspace.version found.2 found.1 with
      | .error _ => true
      | .ok before => match x.workspace.version x'.files found.1 with
        | .error _ => false
        | .ok now => before.same now)
    && match x.candidate.1 with
      | .error _ => true
      | .ok s => s.conversions.values.all fun e => e.record.artifacts.all (isIntact x'.files)

theorem of_unchanged (h : x.unchanged x' = true) : x.Unchanged x' := by
  unfold unchanged at h
  split at h
  · next e hlayout =>
    refine ⟨fun _ hlayout' => ?_, fun _ hlayout' => ?_, fun s hs => ?_⟩
    · cases hlayout.symm.trans hlayout'
    · cases hlayout.symm.trans hlayout'
    · rw [candidate, LiveTable.candidate_of_error hlayout] at hs
      cases hs
  · next layout hlayout =>
    simp only [Bool.and_eq_true, List.all_eq_true] at h
    obtain ⟨⟨hagain, hsources⟩, hartifacts⟩ := h
    refine ⟨fun _ hlayout' => ?_, fun _ hlayout' found hfound before hbefore => ?_, fun s hs e he a ha => ?_⟩
    · obtain rfl := Except.ok.inj (hlayout.symm.trans hlayout')
      split at hagain
      · cases hagain
      · next again hsecond => rw [hsecond, of_decide_eq_true hagain]
    · obtain rfl := Except.ok.inj (hlayout.symm.trans hlayout')
      have hsource := hsources found hfound
      rw [hbefore] at hsource
      dsimp only at hsource
      split at hsource
      · cases hsource
      · next now hnow => exact ⟨now, hnow, hsource⟩
    · rw [hs] at hartifacts
      exact List.all_eq_true.mp (List.all_eq_true.mp hartifacts e he) a ha

/-- Two partitions of `d`, each a directory with a file. A directory stands where the ledger file would. -/
def numberedFiles (first second : String) : Files where
  nodes := ⟨[(["d"], .directory), (["d", ".conversions.json"], .directory), (["d", first], .directory),
    (["d", first, "x.parquet"],
      .file (Artifact.Content.encode .parquet ⟨[⟨"a", .int64, true⟩], [[[.int 1]]]⟩) 1),
    (["d", second], .directory),
    (["d", second, "x.parquet"],
      .file (Artifact.Content.encode .parquet ⟨[⟨"a", .int64, true⟩], [[[.int 2]]]⟩) 2)]⟩
  home := []
  clock := 3

/-- A first pass over `d`: the session before it and the one after it; none if it fails or changes
something. -/
def once? (fs : Files) : Option (Session × Session) :=
  match Workspace.opened fs with
  | .error _ => none
  | .ok w =>
    let x : Session := ⟨.ofOrigin "t" (.directory ⟨"d"⟩) { artifactDir := some ⟨"a"⟩ }, w, fs⟩
    match x.refreshed with
    | (.ok true, x') => if x.unchanged x' then some (x, x') else none
    | _ => none

theorem of_once? {fs : Files} (h : once? fs = some (x, x')) :
    x.table.origin = .directory ⟨"d"⟩ ∧ x.files = fs ∧ x.table.current = .empty ∧
      x.refreshed = (.ok true, x') ∧ x.Unchanged x' := by
  unfold once? at h
  split at h
  · cases h
  · dsimp only at h
    split at h
    · next x₁ hrun =>
      obtain ⟨hunchanged, h⟩ := Option.ite_none_right_eq_some.mp h
      cases h
      exact ⟨rfl, rfl, rfl, hrun, of_unchanged hunchanged⟩
    · cases h

/-- Whether no value that a session finds in `d` is a NaN. -/
def findsNumbers (x : Session) : Bool :=
  match x.detection.detect x.files ⟨"d"⟩ with
  | .error _ => false
  | .ok layout => decide (∀ p ∈ layout.partitions, p.Definite)

theorem findsNumbers_iff (hnamed : x.files.WellNamed) {layout : Layout}
    (hdetect : x.detection.detect x.files ⟨"d"⟩ = .ok layout) :
    x.findsNumbers = true ↔ ¬ layout.NamesNaN := by
  rw [← Detection.definite_iff hnamed hdetect, findsNumbers, hdetect]
  exact decide_eq_true_iff

/-- Where all directories name numbers the snapshot is kept, also with a zero that has a sign. -/
theorem refreshed_again_numbers :
    ∃ x x' : Session, x.table.origin = .directory ⟨"d"⟩ ∧ x.files = numberedFiles "k=-0" "k=1.5" ∧
      x.files.WellNamed ∧ 0 < x.files.clock ∧ x.table.current.Built ∧ x.refreshed = (.ok true, x') ∧
      x.Unchanged x' ∧ x'.refreshed.1 = .ok false ∧ x'.refreshed.2.table.current = x'.table.current := by
  have honce : (once? (numberedFiles "k=-0" "k=1.5")).map (fun (x, _) => x.findsNumbers) = some true := by
    decide +kernel
  obtain ⟨⟨x, x'⟩, honce, hnumbers⟩ := Option.map_eq_some_iff.mp honce
  obtain ⟨horigin, hfiles, hempty, hrun, hunchanged⟩ := of_once? honce
  have hnamed : x.files.WellNamed := by
    rw [hfiles]
    decide +kernel
  have hclock : 0 < x.files.clock := hfiles ▸ by decide
  have hbuilt : x.table.current.Built := hempty ▸ Snapshot.built_empty
  obtain ⟨-, -, layout, s, hdetect, -, -, -, hkept, -⟩ :=
    refreshed_again horigin hnamed hclock hbuilt hrun hunchanged
  obtain ⟨houtcome, hcurrent⟩ := hkept ((findsNumbers_iff hnamed hdetect).mp hnumbers)
  exact ⟨x, x', horigin, hfiles, hnamed, hclock, hbuilt, hrun, hunchanged, houtcome, hcurrent⟩

/-- Where a directory names a NaN it is not, although nothing has changed and nothing is converted. -/
theorem not_kept_nan :
    ∃ x x' : Session, x.files = numberedFiles "k=1.5" "k=nan" ∧ x.refreshed = (.ok true, x') ∧
      x.Unchanged x' ∧ x'.refreshed.2.workspace.performed = x'.workspace.performed ∧
      x'.refreshed.1 = .ok true ∧
      ∃ s, x'.candidate.1 = .ok s ∧ x'.table.current.sameContent s = false ∧ s.sameContent s = false := by
  have honce : (once? (numberedFiles "k=1.5" "k=nan")).map (fun (x, x') => decide
      (x'.refreshed.1.toOption = some true ∧
        x'.refreshed.2.workspace.performed = x'.workspace.performed ∧
        x'.candidate.1.toOption.map (fun s => (x'.table.current.sameContent s, s.sameContent s))
          = some (false, false))) = some true := by decide +kernel
  obtain ⟨⟨x, x'⟩, honce, hfacts⟩ := Option.map_eq_some_iff.mp honce
  obtain ⟨-, hfiles, -, hrun, hunchanged⟩ := of_once? honce
  obtain ⟨houtcome, hperformed, hcandidate⟩ := of_decide_eq_true hfacts
  obtain ⟨s, hs, hsame⟩ := Option.map_eq_some_iff.mp hcandidate
  obtain ⟨hcurrent, hself⟩ := Prod.mk.inj hsame
  exact ⟨x, x', hfiles, hrun, hunchanged, hperformed, Outcome.eq_ok_of_toOption houtcome, s,
    Outcome.eq_ok_of_toOption hs, hcurrent, hself⟩

end Session

end SourceTables

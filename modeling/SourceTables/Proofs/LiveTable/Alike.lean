import SourceTables.Proofs.LiveTable.Candidate
import SourceTables.Proofs.Scan
import SourceTables.Proofs.Workspace.Steady

/-!
# `SourceTables.Proofs.LiveTable.Alike`: tables without times

Two conversions of one source differ in the times of their records and artifacts. A candidate that is built
from one of them is then the same as one that is built from the other, but for times, if the artifacts have
the same columns; and it shows the same rows if the artifacts hold the same.

The theorems:

* `LiveTable.assemble_of_untimed`: candidates of records that are the same but for times.
* `Snapshot.rows_untimed`: the rows of snapshots that are.
-/

set_option autoImplicit false

namespace SourceTables

open Artifact (Content)
open Workspace (isIntact)

/-- A partition whose artifacts have no times. -/
def PartitionEntry.untimed (entry : PartitionEntry) : PartitionEntry :=
  { entry with artifacts := entry.artifacts.map ArtifactRef.timeless }

/-- What a snapshot shows, without the conversions and the times. -/
def Snapshot.untimed (s : Snapshot) : Snapshot :=
  { s with partitions := s.partitions.map PartitionEntry.untimed, conversions := Keyed.empty, builtAt := 0 }

namespace LiveTable

variable {results results' : List (Path × Except Error Record)}

/-! ### The artifacts of a candidate -/

/-- Which artifact is selected does not depend on times. -/
theorem untimed_selectArtifact (t : LiveTable) (r : Record) :
    (t.selectArtifact r).map ArtifactRef.timeless = t.selectArtifact r.untimed := by
  have hartifact : t.origin.artifact? r.untimed = (t.origin.artifact? r).map ArtifactRef.timeless := by
    unfold Origin.artifact?
    split
    · rw [Record.artifacts_untimed, List.find?_map]
      rfl
    · rfl
    · rfl
  have hmissing : t.origin.missingTable r.untimed = t.origin.missingTable r := rfl
  unfold selectArtifact
  rw [hartifact, hmissing]
  cases t.origin.artifact? r <;> rfl

/-- One more outcome, without times. -/
theorem untimed_addResult {m m' : LedgerMap} {result result' : Path × Except Error Record}
    {key : List Component}
    (hm : (m'.get? key).map (fun e => e.record.untimed) = (m.get? key).map fun e => e.record.untimed)
    (h : Workspace.outcome result' = Workspace.outcome result) :
    ((addResult m' result').get? key).map (fun e => e.record.untimed)
      = ((addResult m result).get? key).map fun e => e.record.untimed := by
  obtain ⟨p, outcome⟩ := result
  obtain ⟨p', outcome'⟩ := result'
  obtain ⟨hpath, houtcome⟩ := Prod.mk.inj h
  dsimp only at hpath houtcome
  subst hpath
  cases outcome with
  | error e =>
    cases outcome' with
    | error e' => exact hm
    | ok r' => cases houtcome
  | ok r =>
    cases outcome' with
    | error e' => cases houtcome
    | ok r' =>
      obtain ⟨_, hget⟩ := get?_insertAt m p' r key
      obtain ⟨_, hget'⟩ := get?_insertAt m' p' r' key
      show ((m'.insertAt p' r').get? key).map _ = ((m.insertAt p' r).get? key).map _
      rw [hget, hget']
      split
      · exact houtcome
      · exact hm

/-- The records of a pass, without times, follow from its outcomes. -/
theorem untimed_foldl {m m' : LedgerMap} {key : List Component}
    (hm : (m'.get? key).map (fun e => e.record.untimed) = (m.get? key).map fun e => e.record.untimed)
    (h : results'.map Workspace.outcome = results.map Workspace.outcome) :
    ((results'.foldl addResult m').get? key).map (fun e => e.record.untimed)
      = ((results.foldl addResult m).get? key).map fun e => e.record.untimed := by
  induction results generalizing results' m m' with
  | nil =>
    obtain rfl := List.map_eq_nil_iff.mp h
    exact hm
  | cons result rest ih =>
    obtain ⟨result', rest', rfl, hfirst, hrest⟩ := List.map_eq_cons_iff.mp h
    rw [List.foldl_cons, List.foldl_cons]
    exact ih (untimed_addResult hm hfirst) hrest

/-- Partitions of records that are the same but for times. -/
theorem untimed_selectPartition (t : LiveTable) (m : LedgerMap) (p : Partition) :
    (t.selectPartition m p).map PartitionEntry.untimed
      = ((p.files.filterMap fun file => (m.get? file.components).map fun e => e.record.untimed).mapM
          t.selectArtifact).map (PartitionEntry.mk p) := by
  have hrecords : (p.files.filterMap fun file => (m.get? file.components).map fun e => e.record.untimed)
      = (p.files.filterMap fun file => (m.get? file.components).map LedgerEntry.record).map
        Record.untimed := by
    rw [List.map_filterMap]
    congr 1
    funext file
    rw [Option.map_map]
    rfl
  rw [hrecords]
  unfold selectPartition
  dsimp only
  generalize (p.files.filterMap fun file => (m.get? file.components).map LedgerEntry.record) = records
  have hall : (records.map Record.untimed).mapM t.selectArtifact
      = (records.mapM t.selectArtifact).map (List.map ArtifactRef.timeless) := by
    rw [Outcome.map_mapM, List.mapM_map]
    exact Outcome.mapM_congr fun r _ => (t.untimed_selectArtifact r).symm
  rw [hall]
  cases records.mapM t.selectArtifact <;> rfl

/-- Which paths are read does not depend on times. -/
theorem untimed_artifactPaths (partitions : List PartitionEntry) :
    artifactPaths (partitions.map PartitionEntry.untimed) = artifactPaths partitions := by
  unfold artifactPaths
  rw [List.flatMap_map]
  congr 3
  funext entry
  show (entry.artifacts.map ArtifactRef.timeless).map _ = _
  rw [List.map_map]
  rfl

/-- Each record of a pass is that of a result. -/
theorem of_get?_foldl {m : LedgerMap} {key : List Component} {e : LedgerEntry}
    (h : (results.foldl addResult m).get? key = some e) :
    (∃ q, (q, .ok e.record) ∈ results) ∨ m.get? key = some e := by
  induction results generalizing m with
  | nil => exact .inr h
  | cons result rest ih =>
    obtain ⟨q, hq⟩ | hget := ih h
    · exact .inl ⟨q, .tail _ hq⟩
    · obtain ⟨q, outcome⟩ := result
      cases outcome with
      | error cause => exact .inr hget
      | ok r =>
        obtain ⟨_, hinsert⟩ := get?_insertAt m q r key
        rw [addResult, hinsert] at hget
        split at hget
        · cases hget
          exact .inl ⟨q, .head _⟩
        · exact .inr hget

/-- Each artifact that is selected is one of a record of the pass. -/
theorem of_mem_selectPartition {t : LiveTable} {p : Partition} {entry : PartitionEntry}
    (h : t.selectPartition (conversions results) p = .ok entry) {a : ArtifactRef} (ha : a ∈ entry.artifacts) :
    ∃ q r, (q, .ok r) ∈ results ∧ a ∈ r.artifacts := by
  unfold selectPartition at h
  obtain ⟨artifacts, hartifacts, h⟩ := Outcome.bind_eq_ok.mp h
  cases h
  obtain ⟨r, hr, hselect⟩ := Outcome.exists_of_forall₂ (Outcome.mapM_eq_ok.mp hartifacts).flip ha
  obtain ⟨file, -, hget⟩ := List.mem_filterMap.mp hr
  obtain ⟨e, he, rfl⟩ := Option.map_eq_some_iff.mp hget
  obtain ⟨q, hq⟩ | hnone := of_get?_foldl he
  · exact ⟨q, e.record, hq, mem_of_selectArtifact hselect⟩
  · cases hnone

/-! ### Candidates -/

section

variable {t : LiveTable} {tree tree' : Files} {layout : Layout} {s : Snapshot}

/-- The artifacts of a candidate are those of records of the pass. -/
theorem of_mem_assemble (h : t.assemble tree uninterrupted layout results = .ok s) {a : ArtifactRef}
    (ha : a ∈ s.artifacts) : ∃ q r, (q, .ok r) ∈ results ∧ a ∈ r.artifacts := by
  obtain ⟨-, partitions, columns, hpartitions, -, rfl⟩ := assemble_eq_ok.mp h
  obtain ⟨entry, hentry, ha⟩ := List.mem_flatMap.mp ha
  obtain ⟨p, -, hselect⟩ := Outcome.exists_of_forall₂ (Outcome.mapM_eq_ok.mp hpartitions).flip hentry
  exact of_mem_selectPartition hselect ha

/-- The first candidate of a table reads the columns of all its artifacts. -/
theorem columns_of_empty (hcurrent : t.current = .empty) (tree : Files) (keys : List PartitionKey)
    (partitions : List PartitionEntry) : t.columns tree keys partitions = mergedColumns tree partitions := by
  unfold columns
  rw [hcurrent, if_neg]
  simp [Snapshot.empty]

/-- From outcomes that are the same there is a candidate, too, and it is the same but for times, if the
columns of the artifacts are. -/
theorem assemble_of_untimed (hcurrent : t.current = .empty)
    (h : results'.map Workspace.outcome = results.map Workspace.outcome)
    (hschema : ∀ q r, (q, .ok r) ∈ results → ∀ a ∈ r.artifacts,
      Artifact.schema tree' a.path = Artifact.schema tree a.path)
    (hs : t.assemble tree uninterrupted layout results = .ok s) :
    ∃ s', t.assemble tree' uninterrupted layout results' = .ok s' ∧ s'.untimed = s.untimed := by
  obtain ⟨hall, partitions, columns, hpartitions, hcolumns, rfl⟩ := assemble_eq_ok.mp hs
  have hall' : ∀ result ∈ results', ∃ r, result.2 = .ok r := fun result' hresult' => by
    obtain ⟨result, hresult, hsame⟩ := List.mem_map.mp (h ▸ List.mem_map_of_mem hresult')
    obtain ⟨r, hr⟩ := hall result hresult
    obtain ⟨-, houtcome⟩ := Prod.mk.inj hsame
    rw [hr] at houtcome
    obtain ⟨r', hr', -⟩ := Option.map_eq_some_iff.mp houtcome.symm
    exact ⟨r', Outcome.eq_ok_of_toOption hr'⟩
  have hselect : (layout.partitions.mapM (t.selectPartition (conversions results'))).map
        (List.map PartitionEntry.untimed)
      = (layout.partitions.mapM (t.selectPartition (conversions results))).map
        (List.map PartitionEntry.untimed) := by
    rw [Outcome.map_mapM, Outcome.map_mapM]
    refine Outcome.mapM_congr fun p _ => ?_
    rw [untimed_selectPartition, untimed_selectPartition]
    congr 3
    funext file
    exact untimed_foldl rfl h
  rw [hpartitions] at hselect
  cases hpartitions' : layout.partitions.mapM (t.selectPartition (conversions results')) with
  | error e =>
    rw [hpartitions'] at hselect
    cases hselect
  | ok partitions' =>
    rw [hpartitions'] at hselect
    have hsame : partitions'.map PartitionEntry.untimed = partitions.map PartitionEntry.untimed :=
      Except.ok.inj hselect
    have hpaths : artifactPaths partitions' = artifactPaths partitions := by
      rw [← untimed_artifactPaths, hsame, untimed_artifactPaths]
    rw [columns_of_empty hcurrent] at hcolumns
    have hcolumns' : t.columns tree' layout.keys partitions' = .ok columns := by
      rw [columns_of_empty hcurrent, ← hcolumns]
      unfold mergedColumns
      rw [hpaths]
      congr 1
      refine Outcome.mapM_congr fun path hpath => ?_
      obtain ⟨a, ha, rfl⟩ := of_mem_artifactPaths hpath
      obtain ⟨q, r, hresult, ha⟩ := of_mem_assemble hs ha
      exact hschema q r hresult a ha
    refine ⟨_, assemble_eq_ok.mpr ⟨hall', partitions', columns, hpartitions', hcolumns', rfl⟩, ?_⟩
    unfold Snapshot.untimed Snapshot.build
    dsimp only
    rw [hsame]

end

end LiveTable

/-! ### Rows -/

/-- What has a fingerprint is there. -/
theorem Fingerprint.stat_of_compute {fs : Files} {p : Path} {withHash : Bool} {f : Fingerprint}
    (h : compute fs p withHash = .ok f) : ∃ there, fs.stat p = .ok there := by
  unfold compute at h
  cases hstat : fs.stat p with
  | error e =>
    rw [hstat] at h
    cases h
  | ok there => exact ⟨there, rfl⟩

namespace Snapshot

variable {s s' : Snapshot} {fs fs' : Files}

/-- What the artifacts come to that a scan goes through, one by one. -/
def outcomes (s : Snapshot) (fs : Files) (predicate : Predicate) (projection : Option (List Nat))
    (batchSize : Nat) : List (Except Error (List Row)) :=
  (s.scan predicate projection none).artifacts.map
    (Scan.artifactRows s projection (Artifact.read fs batchSize))

/-- They do not depend on times. -/
theorem outcomes_untimed (s : Snapshot) (fs : Files) (predicate : Predicate)
    (projection : Option (List Nat)) (batchSize : Nat) :
    s.untimed.outcomes fs predicate projection batchSize = s.outcomes fs predicate projection batchSize := by
  unfold outcomes scan kept untimed
  dsimp only
  rw [List.filter_map, List.flatMap_map, List.map_flatMap, List.map_flatMap]
  congr 1
  funext entry
  show (((entry.artifacts.map ArtifactRef.timeless).map fun a => (entry.partition, a)).map _) = _
  rw [List.map_map, List.map_map, List.map_map]
  rfl

/-- Artifacts that look the same are read to the same. -/
theorem read_eq_of_same {a b : ArtifactRef} (ha : isIntact fs a = true) (hb : isIntact fs b = true)
    (hsame : b.fingerprint.same a.fingerprint = true) {batchSize : Nat} {c : Content}
    (h : Artifact.read fs batchSize b.path = .ok c) : Artifact.read fs batchSize a.path = .ok c := by
  obtain ⟨now, hnow, hnowSame⟩ := Workspace.compute_of_isIntact ha
  obtain ⟨now', hnow', hnowSame'⟩ := Workspace.compute_of_isIntact hb
  have hpath := (Fingerprint.same_iff.mp
    (Fingerprint.same_trans (Fingerprint.same_trans hnowSame' hsame) (Fingerprint.same_symm hnowSame))).1
  rw [Fingerprint.path_of_compute hnow, Fingerprint.path_of_compute hnow'] at hpath
  -- Both paths lead to something, and so to the same.
  obtain ⟨there, hthere⟩ := Fingerprint.stat_of_compute hnow
  obtain ⟨there', hthere'⟩ := Fingerprint.stat_of_compute hnow'
  obtain rfl := Files.stat_eq_of_same (Path.same_iff.mpr hpath) hthere' hthere
  have hcontent : fs.content a.path = fs.content b.path := by
    unfold Files.content
    rw [hthere, hthere']
  unfold Artifact.read at h ⊢
  cases hread : Artifact.content fs b.path with
  | error e =>
    rw [hread] at h
    cases h
  | ok whole =>
    rw [hread] at h
    rw [Artifact.content_congr hcontent hpath.symm hread]
    exact h

/-- A scan of artifacts that are as recorded, with a cache that has kept nothing before. -/
theorem drain_of_intact (hintact : s.Intact fs) {r : Reading} (hr : r.cache.entries = [])
    (predicate : Predicate) (projection : Option (List Nat)) (limit : Option Nat) (batchSize : Nat) :
    let drained := ((s.scan predicate projection limit).drain (Artifact.read fs batchSize) r).1
    (drained.rows, drained.failure)
      = Scan.limited limit (Scan.upToFailure (s.outcomes fs predicate projection batchSize)) := by
  -- What is kept during the scan was read of an artifact with the fingerprint that it is kept under.
  let R (f : Fingerprint) (c : Content) : Prop :=
    ∃ b ∈ s.artifacts, b.fingerprint.same f = true ∧ Artifact.read fs batchSize b.path = .ok c
  have hR : Fingerprint.Respects R := fun f g c hfg ⟨b, hb, hbf, hread⟩ =>
    ⟨b, hb, Fingerprint.same_trans hbf hfg, hread⟩
  have hcache : r.cache.Holds R := fun e he => by
    rw [hr] at he
    cases he
  have hmem : ∀ x ∈ (s.scan predicate projection limit).artifacts, x.2 ∈ s.artifacts := by
    rintro x hx
    obtain ⟨entry, hentry, hx⟩ := List.mem_flatMap.mp hx
    obtain ⟨a, ha, rfl⟩ := List.mem_map.mp hx
    exact List.mem_flatMap.mpr ⟨entry, List.mem_of_mem_filter hentry, ha⟩
  have hyields : List.Forall₂ (Scan.Yields R (Artifact.read fs batchSize) s projection)
      (s.scan predicate projection limit).artifacts (s.outcomes fs predicate projection batchSize) := by
    refine List.forall₂_map_right_iff.mpr (List.forall₂_same.mpr fun x hx => ⟨?_, ?_, ?_⟩)
    · rintro c ⟨b, hb, hsame, hread⟩
      have hread := read_eq_of_same (hintact _ (hmem x hx)) (hintact b hb) hsame hread
      unfold Scan.artifactRows
      rw [hread]
      rfl
    · exact fun c hc => ⟨x.2, hmem x hx, Fingerprint.same_refl _, hc⟩
    · intro e he
      unfold Scan.artifactRows
      rw [he]
      rfl
  exact (Scan.reads_drain hR hcache hyields rfl).rows

/-- Snapshots that are the same but for times show the same rows if their artifacts hold the same. -/
theorem rows_untimed (hsame : s'.untimed = s.untimed) (hintact : s.Intact fs) (hintact' : s'.Intact fs')
    (hcontent : ∀ a ∈ s.artifacts, Artifact.content fs' a.path = Artifact.content fs a.path)
    {r r' : Reading} (hr : r.cache.entries = []) (hr' : r'.cache.entries = []) (predicate : Predicate)
    (projection : Option (List Nat)) (limit : Option Nat) (batchSize : Nat) :
    let drained := ((s.scan predicate projection limit).drain (Artifact.read fs batchSize) r).1
    let drained' := ((s'.scan predicate projection limit).drain (Artifact.read fs' batchSize) r').1
    drained'.rows = drained.rows ∧ drained'.failure = drained.failure := by
  have houtcomes : s'.outcomes fs' predicate projection batchSize
      = s.outcomes fs predicate projection batchSize := by
    rw [← s'.outcomes_untimed, hsame, s.outcomes_untimed]
    refine List.map_congr_left fun x hx => ?_
    obtain ⟨entry, hentry, hx⟩ := List.mem_flatMap.mp hx
    obtain ⟨a, ha, rfl⟩ := List.mem_map.mp hx
    unfold Scan.artifactRows Artifact.read
    rw [hcontent a (List.mem_flatMap.mpr ⟨entry, List.mem_of_mem_filter hentry, ha⟩)]
  have hrows := drain_of_intact hintact hr predicate projection limit batchSize
  have hrows' := drain_of_intact hintact' hr' predicate projection limit batchSize
  rw [houtcomes] at hrows'
  exact Prod.mk.inj (hrows'.trans hrows.symm)

end Snapshot

end SourceTables

import SourceTables.Proofs.LiveTable.Assemble
import SourceTables.Proofs.Merge
import SourceTables.Proofs.Partition.Cover
import SourceTables.Proofs.Workspace.Held

/-!
# `SourceTables.Proofs.LiveTable.Candidate`: the artifacts and the columns of a candidate

A snapshot is sound when it follows from what its artifacts held. It stays so whatever happens later, which
is why a candidate may take over the columns of the current snapshot where it selects the same artifacts.

The theorems:

* `merged_of_columns`: the columns of a candidate are those that its artifacts have together.
* `of_selectPartition`: a table of a directory shows the first artifact of each file.
-/

set_option autoImplicit false

namespace SourceTables

open Artifact (Content)
open Workspace (Held isIntact)

/-! ### Lists that agree one by one -/

/-- A check of all pairs, which also compares the lengths, holds of each pair. -/
theorem forall₂_of_all_zip {α β : Type} {check : α × β → Bool} {xs : List α} {ys : List β}
    (hlength : xs.length = ys.length) (hall : (xs.zip ys).all check = true) :
    List.Forall₂ (fun x y => check (x, y) = true) xs ys :=
  List.forall₂_iff_zip.mpr ⟨hlength, fun hmem => List.all_eq_true.mp hall _ hmem⟩

theorem Record.forall₂_of_sameArtifacts {as bs : List ArtifactRef} (h : sameArtifacts as bs = true) :
    List.Forall₂ (fun a b => a.same b = true) as bs := by
  rw [sameArtifacts, Bool.and_eq_true, beq_iff_eq] at h
  exact forall₂_of_all_zip h.1 h.2

theorem ArtifactRef.fingerprint_of_same {a b : ArtifactRef} (h : a.same b = true) :
    a.fingerprint.same b.fingerprint = true := by
  rw [same, Bool.and_eq_true] at h
  exact h.2

/-- Whether the artifacts of a partition are the first ones of its files' records, one for each file. -/
def PartitionEntry.Selects (m : LedgerMap) (entry : PartitionEntry) : Prop :=
  List.Forall₂ (fun file a => ∃ e, m.get? file.components = some e ∧ a = e.record.primary)
    entry.partition.files entry.artifacts

namespace Snapshot

/-- Whether all artifacts are as they were recorded. -/
def Intact (fs : Files) (s : Snapshot) : Prop := ∀ a ∈ s.artifacts, isIntact fs a = true

/-- Whether some columns are those that artifacts have together, without those that keys displace. -/
def Columns (contents : List (Engine × Content)) (keys : List PartitionKey) (data : Schema) : Prop :=
  ∃ columns, Schema.Merged columns (contents.flatMap fun c => c.2.schema) ∧ data = dataColumns keys columns

/-- Whether a snapshot follows from what its artifacts held. -/
structure Sound (trees : List Files) (s : Snapshot) : Prop where
  selects : ∀ entry ∈ s.partitions, entry.Selects s.conversions
  spelled : ∀ entry ∈ s.partitions, ∃ chain, entry.partition.Spells s.keys chain
  columns : ∃ contents, List.Forall₂ (Held trees) s.artifacts contents ∧
    Columns contents s.keys s.dataSchema
  schema : s.schema = s.dataSchema ++ keyColumns s.keys

theorem sound_empty (trees : List Files) : empty.Sound trees where
  selects := nofun
  spelled := nofun
  columns := ⟨[], .nil, [], ⟨List.nodup_nil, fun f => by simp⟩, rfl⟩
  schema := rfl

theorem Sound.mono {trees trees' : List Files} {s : Snapshot} (h : s.Sound trees) (hsub : trees ⊆ trees') :
    s.Sound trees' := by
  obtain ⟨contents, hheld, hcolumns⟩ := h.columns
  exact ⟨h.selects, h.spelled, ⟨contents, hheld.imp fun a c hac => hac.mono hsub, hcolumns⟩, h.schema⟩

/-- The columns that a key displaces are left out once. -/
theorem dataColumns_dataColumns (keys : List PartitionKey) (columns : Schema) :
    dataColumns keys (dataColumns keys columns) = dataColumns keys columns := by
  unfold dataColumns
  rw [List.filter_filter]
  simp only [Bool.and_self]

/-- Artifacts that agree one by one hold the same. -/
theorem contents_eq {trees : List Files} (hfaithful : Faithful trees) {as bs : List ArtifactRef}
    {cs ds : List (Engine × Content)} (hsame : List.Forall₂ (fun a b => a.same b = true) as bs)
    (has : List.Forall₂ (Held trees) as cs) (hbs : List.Forall₂ (Held trees) bs ds) : ds = cs := by
  induction hsame generalizing cs ds with
  | nil =>
    cases has
    cases hbs
    rfl
  | cons hfirst _ ih =>
    cases has with
    | cons ha has =>
      cases hbs with
      | cons hb hbs =>
        rw [ha.unique hfaithful hb (ArtifactRef.fingerprint_of_same hfirst), ih has hbs]

end Snapshot

namespace LiveTable

open Snapshot (Columns dataColumns)

variable {trees : List Files} {fs : Files} {partitions : List PartitionEntry}
  {contents : List (Engine × Content)}

/-! ### The columns of a candidate -/

/-- Each path that is read is that of an artifact. -/
theorem of_mem_artifactPaths {p : Path} (h : p ∈ artifactPaths partitions) :
    ∃ a ∈ partitions.flatMap PartitionEntry.artifacts, a.path = p := by
  obtain ⟨e, he, rfl⟩ := List.mem_map.mp h
  have hpair := Keyed.mem_ofList he
  obtain ⟨entry, hentry, hpair⟩ := List.mem_flatMap.mp hpair
  obtain ⟨a, ha, rfl⟩ := List.mem_map.mp hpair
  exact ⟨a, List.mem_flatMap.mpr ⟨entry, hentry, ha⟩, rfl⟩

/-- For each artifact one with the same path is read. -/
theorem exists_mem_artifactPaths {a : ArtifactRef}
    (ha : a ∈ partitions.flatMap PartitionEntry.artifacts) :
    ∃ b ∈ partitions.flatMap PartitionEntry.artifacts, b.path ∈ artifactPaths partitions ∧
      b.path.same a.path = true := by
  obtain ⟨entry, hentry, ha⟩ := List.mem_flatMap.mp ha
  have hpair : (a.path.components, a.path) ∈ partitions.flatMap fun entry =>
      entry.artifacts.map fun a => (a.path.components, a.path) :=
    List.mem_flatMap.mpr ⟨entry, hentry, List.mem_map.mpr ⟨a, ha, rfl⟩⟩
  obtain ⟨p, hp⟩ := Keyed.get?_ofList_of_mem hpair
  have hplace := Keyed.mem_of_get? hp
  obtain ⟨entry', hentry', hpair⟩ := List.mem_flatMap.mp (Keyed.mem_ofList hplace)
  obtain ⟨b, hb, heq⟩ := List.mem_map.mp hpair
  obtain ⟨hcomponents, rfl⟩ := Prod.mk.inj heq
  exact ⟨b, List.mem_flatMap.mpr ⟨entry', hentry', hb⟩, List.mem_map.mpr ⟨_, hplace, rfl⟩,
    Path.same_iff.mpr hcomponents⟩

/-- The columns that are read are those that the artifacts have together. -/
theorem merged_of_mergedColumns (hfaithful : Faithful trees) (hfs : fs ∈ trees)
    (hheld : List.Forall₂ (Held trees) (partitions.flatMap PartitionEntry.artifacts) contents)
    (hintact : ∀ a ∈ partitions.flatMap PartitionEntry.artifacts, isIntact fs a = true)
    {columns : Schema} (h : mergedColumns fs partitions = .ok columns) :
    Schema.Merged columns (contents.flatMap fun c => c.2.schema) := by
  unfold mergedColumns at h
  cases hschemas : (artifactPaths partitions).mapM (Artifact.schema fs) with
  | error e =>
    rw [hschemas] at h
    cases h
  | ok schemas =>
    rw [hschemas] at h
    cases h
    have hpaths := Outcome.mapM_eq_ok.mp hschemas
    have hschema {a : ArtifactRef} (ha : a ∈ partitions.flatMap PartitionEntry.artifacts)
        {c : Engine × Content} (hac : Held trees a c) : Artifact.schema fs a.path = .ok c.2.schema := by
      unfold Artifact.schema
      rw [hac.content_eq hfaithful hfs (hintact a ha)]
      rfl
    refine (Schema.merged_merge schemas).congr fun f => ?_
    rw [List.mem_flatten, List.mem_flatMap]
    constructor
    · rintro ⟨schema, hmem, hf⟩
      obtain ⟨p, hp, hread⟩ := Outcome.exists_of_forall₂ hpaths.flip hmem
      obtain ⟨a, ha, rfl⟩ := of_mem_artifactPaths hp
      obtain ⟨c, hc, hac⟩ := Outcome.exists_of_forall₂ hheld ha
      rw [hschema ha hac] at hread
      cases hread
      exact ⟨c, hc, hf⟩
    · rintro ⟨c, hc, hf⟩
      obtain ⟨a, ha, hac⟩ := Outcome.exists_of_forall₂ hheld.flip hc
      -- Where several artifacts have one path, the one that is read holds what the others do.
      obtain ⟨b, hb, hp, hpath⟩ := exists_mem_artifactPaths ha
      obtain ⟨schema, hmem, hread⟩ := Outcome.exists_of_forall₂ hpaths hp
      obtain ⟨d, -, hbd⟩ := Outcome.exists_of_forall₂ hheld hb
      have hsame := Workspace.same_of_isIntact (hintact b hb) (hintact a ha) hpath
      rw [hschema hb hbd, ← hbd.unique hfaithful hac hsame] at hread
      cases hread
      exact ⟨_, hmem, hf⟩

/-- The columns of a candidate are those that its artifacts have together, also where they are taken over
from the current snapshot. -/
theorem merged_of_columns {t : LiveTable} (hfaithful : Faithful trees) (hfs : fs ∈ trees)
    (hcurrent : t.current.Sound trees)
    (hheld : List.Forall₂ (Held trees) (partitions.flatMap PartitionEntry.artifacts) contents)
    (hintact : ∀ a ∈ partitions.flatMap PartitionEntry.artifacts, isIntact fs a = true)
    {keys : List PartitionKey} {columns : Schema} (h : t.columns fs keys partitions = .ok columns) :
    Columns contents keys (dataColumns keys columns) := by
  unfold LiveTable.columns at h
  split at h
  · next hselection =>
    cases h
    simp only [sameSelection, Bool.and_eq_true, beq_iff_eq] at hselection
    obtain ⟨⟨⟨rfl, hlength⟩, hall⟩, -⟩ := hselection
    have hartifacts : List.Forall₂ (fun a b => a.same b = true) t.current.artifacts
        (partitions.flatMap PartitionEntry.artifacts) := by
      refine List.rel_flatMap (forall₂_of_all_zip hlength hall) fun a b hab => ?_
      exact Record.forall₂_of_sameArtifacts hab
    obtain ⟨known, hknown, merged, hmerged, hdata⟩ := hcurrent.columns
    refine ⟨merged, ?_, ?_⟩
    · rw [Snapshot.contents_eq hfaithful hartifacts hknown hheld]
      exact hmerged
    · rw [hdata, Snapshot.dataColumns_dataColumns]
  · exact ⟨columns, merged_of_mergedColumns hfaithful hfs hheld hintact h, rfl⟩

/-! ### The artifacts of a candidate -/

/-- A table shows one artifact of each file, which is one of the file's record. -/
theorem forall₂_of_selectPartition {t : LiveTable} {m : LedgerMap} {p : Partition} {entry : PartitionEntry}
    (hall : ∀ file ∈ p.files, ∃ e, m.get? file.components = some e)
    (h : t.selectPartition m p = .ok entry) : entry.partition = p ∧
      List.Forall₂ (fun file a => ∃ e, m.get? file.components = some e ∧ t.selectArtifact e.record = .ok a)
        p.files entry.artifacts := by
  unfold selectPartition at h
  replace h := Outcome.bind_eq_ok.mp h
  obtain ⟨artifacts, hartifacts, h⟩ := h
  cases h
  refine ⟨rfl, ?_⟩
  show List.Forall₂ _ p.files artifacts
  generalize p.files = files at hall hartifacts
  induction files generalizing artifacts with
  | nil =>
    cases hartifacts
    exact .nil
  | cons file rest ih =>
    obtain ⟨e, he⟩ := hall file (.head _)
    rw [List.filterMap_cons_some (by rw [he]; rfl), Outcome.mapM_eq_ok] at hartifacts
    cases hartifacts with
    | cons hfirst hrest =>
      exact .cons ⟨e, he, hfirst⟩ (ih _ (fun file hfile => hall file (.tail _ hfile))
        (Outcome.mapM_eq_ok.mpr hrest))

/-- What a table selects is an artifact of the record. -/
theorem mem_of_selectArtifact {t : LiveTable} {r : Record} {a : ArtifactRef}
    (h : t.selectArtifact r = .ok a) : a ∈ r.artifacts := by
  unfold selectArtifact at h
  split at h
  · next a' hartifact =>
    cases h
    unfold Origin.artifact? at hartifact
    split at hartifact
    · exact List.mem_of_find?_eq_some hartifact
    · cases hartifact
      exact .head _
    · cases hartifact
      exact .head _
  · cases h

/-- A table of a directory shows the first artifact of each file. -/
theorem of_selectPartition {t : LiveTable} {root : Path} (horigin : t.origin = .directory root)
    {m : LedgerMap} {p : Partition} {entry : PartitionEntry}
    (hall : ∀ file ∈ p.files, ∃ e, m.get? file.components = some e)
    (h : t.selectPartition m p = .ok entry) : entry.partition = p ∧ entry.Selects m := by
  obtain ⟨rfl, hselects⟩ := forall₂_of_selectPartition hall h
  refine ⟨rfl, hselects.imp ?_⟩
  rintro file a ⟨e, he, hselect⟩
  unfold selectArtifact at hselect
  rw [horigin] at hselect
  cases hselect
  exact ⟨e, he, rfl⟩

end LiveTable

end SourceTables

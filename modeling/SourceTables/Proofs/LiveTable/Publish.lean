import SourceTables.Proofs.LiveTable.Candidate
import SourceTables.Proofs.Partition.Listing

/-!
# `SourceTables.Proofs.LiveTable.Publish`: a pass publishes what it finds

A snapshot publishes a layout when it has one artifact for each file: the first one of the file's record,
which holds the first table that the converter makes of the file. Its columns are those that all these
tables have together, without the columns that a key displaces.

Each file counts as the pass finds it when it comes to it: a conversion may change a file that comes later
if that is a link to an artifact.

The theorems:

* `Publishes.sound`: what publishes a layout is sound.
* `Publishes.of_sameContent`: a sound snapshot publishes all that a candidate does which shows the same.
* `publishes_of_candidate`: a candidate publishes the layout that its pass has found.
-/

set_option autoImplicit false

namespace SourceTables

open Artifact (Content)
open Workspace (Held isIntact Made)

namespace Partition

/-- What two partitions that are taken for the same have in common. -/
theorem of_same {p q : Partition} (h : p.same q = true) :
    q.directory.components = p.directory.components ∧
      q.files.map Path.components = p.files.map Path.components := by
  simp only [same, Bool.and_eq_true, beq_iff_eq] at h
  exact ⟨(Path.same_iff.mp h.1.2).symm, h.2.symm⟩

end Partition

/-- Which files an entry selects artifacts for depends on their components alone. -/
theorem PartitionEntry.Selects.of_files {m : LedgerMap} {entry : PartitionEntry} (h : entry.Selects m)
    {files : List Path} (hfiles : entry.partition.files.map Path.components = files.map Path.components) :
    List.Forall₂ (fun file a => ∃ e, m.get? file.components = some e ∧ a = e.record.primary) files
      entry.artifacts := by
  have hkeys : List.Forall₂ (fun key a => ∃ e, m.get? key = some e ∧ a = e.record.primary)
      (entry.partition.files.map Path.components) entry.artifacts :=
    List.forall₂_map_left_iff.mpr h
  rw [hfiles] at hkeys
  exact List.forall₂_map_left_iff.mp hkeys

/-- What two records that agree have in common. -/
theorem Record.of_same {a b : Record} (h : a.same b = true) :
    a.source.same b.source = true ∧ a.primary.same b.primary = true := by
  simp only [same, Bool.and_eq_true] at h
  refine ⟨h.1.1.1.1, ?_⟩
  cases Record.forall₂_of_sameArtifacts h.2 with
  | cons hfirst _ => exact hfirst

/-- A record that agrees with one that is about a version is about that version. -/
theorem Workspace.isOf_of_same {w : Workspace} {fs : Files} {p : Path} {a b : Record}
    (hsame : a.same b = true) (h : w.isOf fs p b = true) : w.isOf fs p a = true := by
  obtain ⟨now, hnow, hb⟩ := isOf_iff.mp h
  exact isOf_iff.mpr ⟨now, hnow, Fingerprint.same_trans (Record.of_same hsame).1 hb⟩

namespace Snapshot

variable {w : Workspace} {trees : List Files} {found : List (Path × Files)} {layout : Layout}
  {table : Path → Engine × Content} {s a b : Snapshot}

/-! ### Snapshots that publish a layout -/

/-- Whether an artifact is the first one of a file's record, which is about the file as it was found, and
held the file's table. -/
def Takes (w : Workspace) (trees : List Files) (found : List (Path × Files))
    (table : Path → Engine × Content) (s : Snapshot) (file : Path) (a : ArtifactRef) : Prop :=
  ∃ tree e, (file, tree) ∈ found ∧ w.primary tree file = .ok (table file) ∧
    s.conversions.get? file.components = some e ∧ w.isOf tree file e.record = true ∧
    a = e.record.primary ∧ Held trees a (table file)

/-- Whether a snapshot shows the tables of a layout's files, each of which was found in some tree. -/
structure Publishes (w : Workspace) (trees : List Files) (found : List (Path × Files)) (layout : Layout)
    (table : Path → Engine × Content) (s : Snapshot) : Prop where
  keys : s.keys = layout.keys
  /-- There is one artifact for each file. -/
  partitions : List.Forall₂ (fun p entry => p.Agrees entry.partition ∧
    List.Forall₂ (s.Takes w trees found table) p.files entry.artifacts) layout.partitions s.partitions
  columns : Columns (layout.files.map table) layout.keys s.dataSchema
  schema : s.schema = s.dataSchema ++ keyColumns s.keys

/-- The artifacts that are taken for the files of a layout held their tables. -/
theorem held_of_takes {partitions : List PartitionEntry}
    (h : List.Forall₂ (fun p entry => p.Agrees entry.partition ∧
      List.Forall₂ (s.Takes w trees found table) p.files entry.artifacts) layout.partitions partitions) :
    List.Forall₂ (Held trees) (partitions.flatMap PartitionEntry.artifacts) (layout.files.map table) := by
  have htakes : List.Forall₂ (s.Takes w trees found table) layout.files
      (partitions.flatMap PartitionEntry.artifacts) := List.rel_flatMap h fun _ _ hp => hp.2
  refine List.forall₂_map_right_iff.mpr (List.Forall₂.flip (htakes.imp ?_))
  rintro file a ⟨_, _, -, -, -, -, -, hheld⟩
  exact hheld

theorem Publishes.mono {trees' : List Files} (h : s.Publishes w trees found layout table)
    (hsub : trees ⊆ trees') : s.Publishes w trees' found layout table := by
  refine ⟨h.keys, h.partitions.imp fun p entry ⟨hagrees, htakes⟩ => ⟨hagrees, htakes.imp ?_⟩, h.columns,
    h.schema⟩
  rintro file a ⟨tree, e, hfound, htable, hget, hisOf, ha, hheld⟩
  exact ⟨tree, e, hfound, htable, hget, hisOf, ha, hheld.mono hsub⟩

/-- The table of each file is the one that was found in it. -/
theorem Publishes.of_mem_files (h : s.Publishes w trees found layout table) {file : Path}
    (hfile : file ∈ layout.files) :
    ∃ tree, (file, tree) ∈ found ∧ w.primary tree file = .ok (table file) := by
  obtain ⟨p, hp, hfile⟩ := List.mem_flatMap.mp hfile
  obtain ⟨entry, -, -, htakes⟩ := Outcome.exists_of_forall₂ h.partitions hp
  obtain ⟨a, -, tree, -, hfound, htable, -⟩ := Outcome.exists_of_forall₂ htakes hfile
  exact ⟨tree, hfound, htable⟩

/-- What publishes a layout is sound. -/
theorem Publishes.sound (h : s.Publishes w trees found layout table)
    (hspelled : ∀ p ∈ layout.partitions, ∃ chain, p.Spells layout.keys chain) : s.Sound trees where
  selects entry hentry := by
    obtain ⟨p, -, hagrees, htakes⟩ := Outcome.exists_of_forall₂ h.partitions.flip hentry
    have hselects : PartitionEntry.Selects s.conversions ⟨p, entry.artifacts⟩ := by
      refine htakes.imp ?_
      rintro file a ⟨_, e, -, -, hget, -, ha, -⟩
      exact ⟨e, hget, ha⟩
    exact hselects.of_files hagrees.files.symm
  spelled entry hentry := by
    obtain ⟨p, hp, hagrees, -⟩ := Outcome.exists_of_forall₂ h.partitions.flip hentry
    obtain ⟨chain, hchain⟩ := hspelled p hp
    rw [h.keys]
    exact ⟨chain, hagrees.spells hchain⟩
  columns := by
    rw [h.keys]
    exact ⟨_, held_of_takes h.partitions, h.columns⟩
  schema := h.schema

/-- What snapshots that show the same have in common. -/
theorem of_sameContent (h : a.sameContent b = true) :
    a.keys = b.keys ∧ a.schema = b.schema ∧
      List.Forall₂ (fun x y => x.partition.same y.partition = true) a.partitions b.partitions := by
  simp only [sameContent, sameEntries, Bool.and_eq_true, beq_iff_eq] at h
  obtain ⟨⟨⟨hkeys, hlength, hentries⟩, -⟩, hschema⟩ := h
  refine ⟨hkeys, hschema, (forall₂_of_all_zip hlength hentries).imp fun x y hxy => ?_⟩
  exact (Bool.and_eq_true_iff.mp hxy).1

/-- A sound snapshot publishes all that a candidate does which shows the same. -/
theorem Publishes.of_sameContent (hfaithful : Faithful trees) (ha : a.Sound trees)
    (h : b.Publishes w trees found layout table)
    (hspelled : ∀ p ∈ layout.partitions, ∃ chain, p.Spells layout.keys chain)
    (hsame : a.sameContent b = true) : a.Publishes w trees found layout table := by
  obtain ⟨hkeys, hschema, hpartitions⟩ := Snapshot.of_sameContent hsame
  have hkeys' : a.keys = layout.keys := hkeys.trans h.keys
  obtain ⟨contents, hheld, -⟩ := ha.columns
  have hdata : a.dataSchema = b.dataSchema := by
    rw [ha.schema, h.schema, hkeys] at hschema
    exact List.append_cancel_right hschema
  refine ⟨hkeys', ?_, hdata ▸ h.columns, ha.schema⟩
  refine Outcome.forall₂_imp_of_mem (Outcome.forall₂_trans h.partitions hpartitions.flip) ?_
  rintro p hp entry hentry ⟨known, -, ⟨hagrees, htakes⟩, hentries⟩
  obtain ⟨hdirectory, hfiles⟩ := Partition.of_same hentries
  have hdirectory' := hdirectory.symm.trans hagrees.directory
  have hfiles' := hfiles.symm.trans hagrees.files
  obtain ⟨chain, hchain⟩ := hspelled p hp
  obtain ⟨chain', hchain'⟩ := ha.spelled entry hentry
  rw [hkeys'] at hchain'
  refine ⟨⟨hchain.values_eq hchain' hdirectory', hdirectory', hfiles'⟩, ?_⟩
  refine Outcome.forall₂_imp_of_mem ((ha.selects entry hentry).of_files hfiles') ?_
  rintro file hfile x hx ⟨e, he, rfl⟩
  -- The record that is kept agrees with the one that the pass was given for the file.
  obtain ⟨y, -, tree, e', hfound, htable, hget, hisOf, rfl, hheld'⟩ :=
    Outcome.exists_of_forall₂ htakes hfile
  obtain ⟨e'', he'', hrecord⟩ := record_of_sameContent hsame hget
  obtain rfl : e = e'' := Option.some.inj (he.symm.trans he'')
  refine ⟨tree, e, hfound, htable, he, Workspace.isOf_of_same hrecord hisOf, rfl, ?_⟩
  have hmem : e.record.primary ∈ a.artifacts := List.mem_flatMap.mpr ⟨entry, hentry, hx⟩
  obtain ⟨c, -, hc⟩ := Outcome.exists_of_forall₂ hheld hmem
  rw [hc.unique hfaithful hheld' (ArtifactRef.fingerprint_of_same (Record.of_same hrecord).2)]
  exact hc

end Snapshot

namespace Workspace

@[simp] theorem isIntact_tick (fs : Files) (a : ArtifactRef) : isIntact fs.tick a = isIntact fs a := by
  unfold isIntact Fingerprint.probe
  rw [Fingerprint.compute_tick]

end Workspace

namespace LiveTable

/-! ### Candidates -/

/-- The files as a pass that nobody calls off leaves them, and as it goes through them. -/
def passed (t : LiveTable) (w : Workspace) (fs : Files) : List Files :=
  (t.candidate w fs uninterrupted).2.2 ::
    match t.origin.layout (w.detection t.maxDepth) fs with
    | .error _ => []
    | .ok layout => w.passed fs layout.files

variable {t : LiveTable} {w : Workspace} {fs : Files} {trees : List Files} {layout : Layout}

/-- A pass that finds no layout ends with that. -/
theorem candidate_of_error {e : Error}
    (hlayout : t.origin.layout (w.detection t.maxDepth) fs = .error e) :
    t.candidate w fs uninterrupted = (.error e, w, fs) := by
  unfold candidate
  rw [hlayout]

/-- A pass converts the files of its layout one after another. -/
theorem candidate_eq (hlayout : t.origin.layout (w.detection t.maxDepth) fs = .ok layout)
    (hnodup : (layout.files.map Path.components).Nodup) :
    t.candidate w fs uninterrupted
      = (t.assemble (w.ensureEach fs layout.files).2.2 uninterrupted layout
          (w.ensureEach fs layout.files).1,
        (w.ensureEach fs layout.files).2.1, (w.ensureEach fs layout.files).2.2.tick) := by
  unfold candidate
  rw [hlayout]
  dsimp only
  rw [Workspace.ensureAll_eq w fs hnodup]
  rfl

theorem passed_eq (hlayout : t.origin.layout (w.detection t.maxDepth) fs = .ok layout)
    (hnodup : (layout.files.map Path.components).Nodup) :
    t.passed w fs = (w.ensureEach fs layout.files).2.2.tick :: w.passed fs layout.files := by
  unfold passed
  rw [candidate_eq hlayout hnodup, hlayout]

/-- A pass that has converted all files has a record for each, made of the file as the pass found it. -/
theorem made_of_pass (hnodup : (layout.files.map Path.components).Nodup)
    (hfaithful : Faithful (w.passed fs layout.files ++ trees)) (hfs : fs ∈ trees)
    (hsound : Workspace.Sound trees w.ledger.records)
    (hall : ∀ result ∈ (w.ensureEach fs layout.files).1, ∃ r, result.2 = .ok r) {file : Path}
    (hfile : file ∈ layout.files) :
    ∃ tree r, (file, tree) ∈ layout.files.zip (w.passed fs layout.files) ∧
      (file, .ok r) ∈ (w.ensureEach fs layout.files).1 ∧
      Made w (w.passed fs layout.files ++ trees) tree file r := by
  have hmade := Workspace.made_of_ensureEach hfaithful hfs hsound hall
  rw [← Workspace.map_fst_ensureEach w fs hnodup] at hfile
  obtain ⟨⟨path, outcome⟩, hresult, rfl⟩ := List.mem_map.mp hfile
  obtain ⟨⟨path', tree⟩, hfound, hpath, r, hr, hmade⟩ := Outcome.exists_of_forall₂ hmade.flip hresult
  cases hpath
  cases hr
  exact ⟨tree, r, hfound, hresult, hmade⟩

/-- A candidate publishes the layout that its pass has found. -/
theorem publishes_of_candidate {root : Path} (horigin : t.origin = .directory root)
    (hlayout : t.origin.layout (w.detection t.maxDepth) fs = .ok layout)
    (hnodup : (layout.files.map Path.components).Nodup) (hfaithful : Faithful (t.passed w fs ++ trees))
    (hfs : fs ∈ trees) (hsound : Workspace.Sound trees w.ledger.records)
    (hcurrent : t.current.Sound trees) {s : Snapshot}
    (hbuilt : (t.candidate w fs uninterrupted).1 = .ok s)
    (hintact : s.Intact (t.candidate w fs uninterrupted).2.2) :
    ∃ table, s.Publishes w (t.passed w fs ++ trees) (layout.files.zip (w.passed fs layout.files)) layout
      table := by
  have hsub : w.passed fs layout.files ++ trees ⊆ t.passed w fs ++ trees := by
    rw [passed_eq hlayout hnodup]
    exact List.subset_cons_self _ _
  have hlast : (w.ensureEach fs layout.files).2.2 ∈ t.passed w fs ++ trees :=
    hsub (List.mem_append_left _ (Workspace.mem_passed w fs layout.files).2)
  rw [candidate_eq hlayout hnodup] at hbuilt hintact
  obtain ⟨hall, partitions, columns, hpartitions, hcolumns, rfl⟩ := assemble_eq_ok.mp hbuilt
  have hmade : ∀ file ∈ layout.files, ∃ c tree r,
      (file, tree) ∈ layout.files.zip (w.passed fs layout.files) ∧
      (file, .ok r) ∈ (w.ensureEach fs layout.files).1 ∧ w.primary tree file = .ok c ∧
      w.isOf tree file r = true ∧ Held (t.passed w fs ++ trees) r.primary c := by
    intro file hfile
    obtain ⟨tree, r, hfound, hresult, hversion, c, hc, hheld⟩ :=
      made_of_pass hnodup (hfaithful.mono hsub) hfs hsound hall hfile
    exact ⟨c, tree, r, hfound, hresult, hc, hversion, Held.mono hheld hsub⟩
  have hnonempty : Nonempty (Engine × Content) := ⟨.arrow, [], []⟩
  choose! table htable using hmade
  have hkeys := Workspace.nodup_ensureEach w fs hnodup
  have hparts : List.Forall₂ (fun p entry => p.Agrees entry.partition ∧
      List.Forall₂ ((Snapshot.build layout.keys partitions
        (conversions (w.ensureEach fs layout.files).1) columns
        (w.ensureEach fs layout.files).2.2.clock).Takes w (t.passed w fs ++ trees)
          (layout.files.zip (w.passed fs layout.files)) table) p.files entry.artifacts)
      layout.partitions partitions := by
    refine Outcome.forall₂_imp_of_mem (Outcome.mapM_eq_ok.mp hpartitions) fun p hp entry _ hselect => ?_
    have hfiles : ∀ file ∈ p.files, file ∈ layout.files := fun file hfile =>
      List.mem_flatMap.mpr ⟨p, hp, hfile⟩
    obtain ⟨rfl, hselects⟩ := of_selectPartition horigin (fun file hfile => by
      obtain ⟨_, r, -, hresult, -⟩ := htable file (hfiles file hfile)
      obtain ⟨writtenAs, hget⟩ := get?_conversions hkeys hresult
      exact ⟨_, hget⟩) hselect
    refine ⟨⟨rfl, rfl, rfl⟩, ?_⟩
    refine Outcome.forall₂_imp_of_mem hselects ?_
    rintro file hfile a - ⟨e, he, rfl⟩
    obtain ⟨tree, r, hfound, hresult, hc, hversion, hheld⟩ := htable file (hfiles file hfile)
    obtain ⟨writtenAs, hget⟩ := get?_conversions hkeys hresult
    obtain rfl : e = ⟨writtenAs, r⟩ := Option.some.inj (he.symm.trans hget)
    exact ⟨tree, _, hfound, hc, he, hversion, rfl, hheld⟩
  refine ⟨table, rfl, hparts, ?_, rfl⟩
  refine merged_of_columns hfaithful hlast (hcurrent.mono (List.subset_append_right _ _))
    (Snapshot.held_of_takes hparts) (fun a ha => ?_) hcolumns
  rw [← Workspace.isIntact_tick]
  exact hintact a ha

end LiveTable

end SourceTables

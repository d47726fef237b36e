import SourceTables.Proofs.LiveTable.Session

/-!
# `SourceTables.Proofs.LiveTable.Rows`: the rows of a refreshed table

The plain way to read a directory goes through its partitions in order and through the files of each, and
puts every row of a file's first table under the columns of the directory, by name. A scan of a table that
was just refreshed hands out the same rows, whatever has happened to the table before: whatever is in the
ledger, in the cache and in the artifacts, no file is missing and none is there twice.

The theorems:

* `Snapshot.Publishes.rows_scan`: what publishes a layout shows the rows of its files.
* `Session.scan_of_refresh`: a scan after a refresh shows the rows of the files that the refresh has found.
-/

set_option autoImplicit false

namespace SourceTables

open Artifact (Content)
open Workspace (Cached Held isIntact)

namespace Plain

/-- The rows of a layout, file by file. -/
def rows (columns : Schema) (layout : Layout) (table : Path → Content) : List Row :=
  layout.partitions.flatMap fun p => p.files.flatMap fun file =>
    (table file).rows.map (row columns layout.keys p (table file).schema)

/-- Of a partition a row has the values alone. -/
theorem row_congr {p q : Partition} (hvalues : q.values = p.values) (columns : Schema)
    (keys : List PartitionKey) (stored : Schema) : row columns keys q stored = row columns keys p stored := by
  funext r
  unfold row Partition.value?
  rw [hvalues]

end Plain

namespace Snapshot

variable {w : Workspace} {trees : List Files} {found : List (Path × Files)} {layout : Layout}
  {table : Path → Engine × Content} {s : Snapshot}

/-- All partitions are kept if nothing is asked for. -/
theorem artifacts_scan_always (s : Snapshot) :
    (s.scan .always none none).artifacts
      = s.partitions.flatMap fun entry => entry.artifacts.map fun a => (entry.partition, a) := by
  have hkept : s.kept .always = s.partitions := List.filter_eq_self.mpr fun _ _ => rfl
  show (s.kept .always).flatMap _ = _
  rw [hkept]

/-- An artifact that is taken for a file shows the rows of the file's table. -/
theorem Takes.shows (hfaithful : Faithful trees) {p q : Partition} {file : Path} {a : ArtifactRef}
    (h : s.Takes w trees found table file a) (hvalues : q.values = p.values) {fs : Files}
    (hfs : fs ∈ trees) (hintact : isIntact fs a = true) (batchSize : Nat)
    (hkept : ∀ n, ((table file).2.kept (table file).1 n).rows = (table file).2.rows)
    (hcasts : Plain.Casts (table file).2.schema s.dataSchema) :
    Scan.Shows (Cached trees) (Artifact.read fs batchSize) s (q, a)
      ((table file).2.rows.map (Plain.row s.dataSchema s.keys p (table file).2.schema)) := by
  obtain ⟨-, -, -, -, -, -, -, hheld⟩ := h
  have hread := hheld.read_eq hfaithful hfs hintact batchSize
  refine ⟨⟨_, hread, Workspace.cached_of_read hfs hintact hread⟩, fun c hc => ?_, fun c hc => ?_⟩
  · obtain ⟨n, rfl⟩ := Workspace.of_cached hfaithful hheld hc
    rw [Content.schema_kept]
    exact hcasts
  · obtain ⟨n, rfl⟩ := Workspace.of_cached hfaithful hheld hc
    rw [Scan.shown, Content.schema_kept, hkept, Plain.row_congr hvalues]

/-- What publishes a layout shows the rows of its files, each once and in order. -/
theorem Publishes.rows_scan (h : s.Publishes w trees found layout table) (hfaithful : Faithful trees)
    {fs : Files} (hfs : fs ∈ trees) (hintact : s.Intact fs)
    (hkept : ∀ file ∈ layout.files, ∀ n,
      ((table file).2.kept (table file).1 n).rows = (table file).2.rows)
    (hcasts : ∀ file ∈ layout.files, Plain.Casts (table file).2.schema s.dataSchema) (batchSize : Nat)
    {r : Reading} (hcache : r.cache.Holds (Cached trees)) :
    ((s.scan .always none none).drain (Artifact.read fs batchSize) r).1.failure = none ∧
      ((s.scan .always none none).drain (Artifact.read fs batchSize) r).1.rows
        = Plain.rows s.dataSchema layout fun file => (table file).2 := by
  have hshows : List.Forall₂ (Scan.Shows (Cached trees) (Artifact.read fs batchSize) s)
      (s.scan .always none none).artifacts
      (layout.partitions.flatMap fun p => p.files.map fun file =>
        (table file).2.rows.map (Plain.row s.dataSchema s.keys p (table file).2.schema)) := by
    rw [artifacts_scan_always]
    refine List.rel_flatMap (R := fun entry p => entry ∈ s.partitions ∧ p ∈ layout.partitions ∧
      p.Agrees entry.partition ∧ List.Forall₂ (s.Takes w trees found table) p.files entry.artifacts) ?_ ?_
    · exact List.Forall₂.flip (Outcome.forall₂_imp_of_mem h.partitions fun p hp entry hentry hpe =>
        ⟨hentry, hp, hpe⟩)
    · rintro entry p ⟨hentry, hp, hagrees, htakes⟩
      refine List.forall₂_map_left_iff.mpr (List.forall₂_map_right_iff.mpr (List.Forall₂.flip ?_))
      refine Outcome.forall₂_imp_of_mem htakes fun file hfile a ha hfa => ?_
      have hmem : file ∈ layout.files := List.mem_flatMap.mpr ⟨p, hp, hfile⟩
      exact hfa.shows hfaithful hagrees.values hfs (hintact a (List.mem_flatMap.mpr ⟨entry, hentry, ha⟩))
        batchSize (hkept file hmem) (hcasts file hmem)
  obtain ⟨hfailure, hrows⟩ := Scan.rows_drain (s := s.scan .always none none)
    (Workspace.respects_cached trees) ⟨rfl, rfl⟩ hcache rfl hshows
  refine ⟨hfailure, hrows.trans ?_⟩
  unfold Plain.rows
  rw [h.keys]
  simp only [List.flatMap_def, List.flatten_flatten, List.map_map, Function.comp_def]

end Snapshot

namespace Session

/-- Whether a pass finds a table in a file of the layout. -/
def Finds (x : Session) (root file : Path) (c : Engine × Content) : Prop :=
  ∃ layout tree, x.detection.detect x.files root = .ok layout ∧ (file, tree) ∈ x.found layout ∧
    x.workspace.primary tree file = .ok c

variable {dir root : Path} {trees : List Files} {x x' : Session}

/-- The tables that are published are those that the pass finds. -/
theorem Published.finds {s : Snapshot} {entries : List Entry} {layout : Layout}
    {table : Path → Engine × Content} (h : x.Published root trees s entries layout table) {file : Path}
    (hfile : file ∈ layout.files) : x.Finds root file (table file) := by
  obtain ⟨tree, hfound, htable⟩ := h.publishes.of_mem_files hfile
  exact ⟨layout, tree, h.detected, hfound, htable⟩

/-- The table of a file that no conversion changes is that of the file before the pass. -/
theorem Published.primary_eq {s : Snapshot} {entries : List Entry} {layout : Layout}
    {table : Path → Engine × Content} (h : x.Published root trees s entries layout table)
    (horigin : x.table.origin = .directory root) {file : Path} (hfile : file ∈ layout.files)
    (hsame : ∀ tree ∈ x.passed, tree.content file = x.files.content file) :
    x.workspace.primary x.files file = .ok (table file) := by
  obtain ⟨tree, hfound, htable⟩ := h.publishes.of_mem_files hfile
  refine Workspace.primary_congr (hsame tree ?_) htable
  have hlayout : x.table.origin.layout x.detection x.files = .ok layout := by
    rw [horigin]
    exact h.detected
  unfold passed
  rw [LiveTable.passed_eq hlayout h.nodup]
  exact .tail _ (List.of_mem_zip hfound).2

/-- A scan after a refresh shows the rows of the files that the refresh has found, whatever has happened
before. -/
theorem scan_of_refresh {swapped : Bool} (h : History dir root trees x)
    (hnamed : ∀ tree ∈ trees, tree.WellNamed) (hrefresh : x.Refreshes (.ok swapped) x')
    (hfaithful : Faithful (x'.files :: x.passed ++ trees)) (hintact : x'.table.current.Intact x'.files)
    (hkept : ∀ file c, x.Finds root file c → ∀ n, (c.2.kept c.1 n).rows = c.2.rows)
    (hcasts : ∀ file c, x.Finds root file c → Plain.Casts c.2.schema x'.table.current.dataSchema) :
    ∃ entries layout table,
      x.Published root (x'.files :: x.passed ++ trees) x'.table.current entries layout table ∧
      (∀ file ∈ layout.files, x.Finds root file (table file) ∧
        ((∀ tree ∈ x.passed, tree.content file = x.files.content file) →
          x.workspace.primary x.files file = .ok (table file))) ∧
      ∀ (batchSize : Nat) (opened : List Path),
        let drained := (x'.table.current.scan .always none none).drain (Artifact.read x'.files batchSize)
          ⟨x'.workspace.cache, opened⟩
        drained.1.failure = none ∧
          drained.1.rows = Plain.rows x'.table.current.dataSchema layout fun file => (table file).2 := by
  have hsub := List.subset_cons_self x'.files (x.passed ++ trees)
  have hknown := kept_of_history h hnamed (hfaithful.mono (List.subset_append_right _ _))
  obtain ⟨entries, layout, table, hpublished⟩ :=
    hknown.publishes (hnamed x.files hknown.accounted.here) (hfaithful.mono hsub) hrefresh
  have hpublishes := hpublished.publishes.mono hsub
  refine ⟨entries, layout, table, { hpublished with publishes := hpublishes }, fun file hfile =>
    ⟨hpublished.finds hfile, hpublished.primary_eq hknown.origin hfile⟩, fun batchSize opened => ?_⟩
  have hcache : x'.workspace.cache.Holds (Cached (x'.files :: x.passed ++ trees)) := fun e he =>
    (hknown.cache e (hrefresh.entries_subset he)).mono (List.subset_append_right _ _)
  exact hpublishes.rows_scan hfaithful (.head _) hintact
    (fun file hfile => hkept file _ (hpublished.finds hfile))
    (fun file hfile => hcasts file _ (hpublished.finds hfile)) batchSize hcache

/-! ### A first pass -/

/-- Whether all tables that a pass finds keep their rows when they are stored, and can be put under some
columns. -/
def fits (x : Session) (root : Path) (columns : Schema) : Bool :=
  match x.detection.detect x.files root with
  | .error _ => true
  | .ok layout => (x.found layout).all fun (file, tree) =>
    match x.workspace.primary tree file with
    | .error _ => true
    | .ok c => (c.1 != .parquet || !c.2.schema.isEmpty) && decide (Plain.Casts c.2.schema columns)

theorem of_fits {columns : Schema} (h : x.fits root columns = true) {file : Path} {c : Engine × Content}
    (hfinds : x.Finds root file c) :
    (∀ n, (c.2.kept c.1 n).rows = c.2.rows) ∧ Plain.Casts c.2.schema columns := by
  obtain ⟨layout, tree, hdetect, hfound, hprimary⟩ := hfinds
  unfold fits at h
  rw [hdetect] at h
  have htable := List.all_eq_true.mp h _ hfound
  simp only [hprimary, Bool.and_eq_true, Bool.or_eq_true, bne_iff_ne, Bool.not_eq_true', decide_eq_true_eq,
    List.isEmpty_eq_false_iff] at htable
  exact ⟨Content.rows_kept fun hengine => htable.1.resolve_left (absurd hengine), htable.2⟩

/-- The first pass over `d`: the session before it and the one after it; none if the pass fails, if an
artifact is not as it was recorded, or if times do not tell contents apart. -/
def first? (fs : Files) : Option (Session × Session) :=
  match Workspace.opened fs with
  | .error _ => none
  | .ok w =>
    let x : Session := ⟨.ofOrigin "t" (.directory ⟨"d"⟩) { artifactDir := some ⟨"a"⟩ }, w, fs⟩
    match x.table.refresh w fs LiveTable.uninterrupted, x.candidate with
    | (.ok true, t, w', fs'), (.ok s, _, after) =>
      if w.ledger.records.isEmpty && w.cache.entries.isEmpty && s.artifacts.all (isIntact after)
        && t.current.artifacts.all (isIntact fs') && x.fits ⟨"d"⟩ t.current.dataSchema
        && Fingerprint.timesTell (fs' :: x.passed ++ [fs])
      then some (x, ⟨t, w', fs'⟩) else none
    | _, _ => none

/-- What such a pass is. -/
theorem of_first? {fs : Files} (h : first? fs = some (x, x')) :
    History ⟨"d"⟩ ⟨"d"⟩ [fs] x ∧ x.Refreshes (.ok true) x' ∧ Faithful (x'.files :: x.passed ++ [fs]) ∧
      x'.table.current.Intact x'.files ∧ x.fits ⟨"d"⟩ x'.table.current.dataSchema = true := by
  unfold first? at h
  split at h
  · cases h
  · next w hopen =>
    dsimp only at h
    split at h
    · next t w' fs' s w'' after hrun hcandidate =>
      split at h
      · next hchecks =>
        simp only [Bool.and_eq_true] at hchecks
        obtain ⟨⟨⟨⟨⟨hrecords, hcache⟩, hbuilt⟩, hintact⟩, hfits⟩, hfaithful⟩ := hchecks
        cases h
        have hempty : w.ledger.records = Keyed.empty := congrArg Keyed.mk (List.isEmpty_iff.mp hrecords)
        refine ⟨.start (.start _ hopen hempty) (List.isEmpty_iff.mp hcache) rfl rfl, ⟨hrun, fun s' hs' => ?_⟩,
          Fingerprint.faithful_of_timesTell hfaithful, List.all_eq_true.mp hintact, hfits⟩
        rw [hcandidate] at hs' ⊢
        cases hs'
        exact List.all_eq_true.mp hbuilt
      · cases h
    · cases h

/-- Two partitions of `d` with a file in each. A directory stands where the ledger file would, so that no
ledger can be saved. -/
def partitionedFiles : Files where
  nodes := ⟨[(["d"], .directory), (["d", ".conversions.json"], .directory), (["d", "k=1"], .directory),
    (["d", "k=1", "x.parquet"],
      .file (Content.encode .parquet ⟨[⟨"a", .int64, true⟩], [[[.int 1], [.int 2]]]⟩) 1),
    (["d", "k=2"], .directory),
    (["d", "k=2", "x.parquet"],
      .file (Content.encode .parquet ⟨[⟨"b", .int64, true⟩, ⟨"a", .float64, true⟩],
        [[[.int 3, .null]]]⟩) 2)]⟩
  home := []
  clock := 3

/-- A first pass over two partitions, and the scan after it. -/
theorem scan_of_first :
    ∃ (x x' : Session), History ⟨"d"⟩ ⟨"d"⟩ [partitionedFiles] x ∧ x.Refreshes (.ok true) x' ∧
      Faithful (x'.files :: x.passed ++ [partitionedFiles]) ∧ x'.table.current.Intact x'.files ∧
      x.fits ⟨"d"⟩ x'.table.current.dataSchema = true ∧
      ∃ (entries : List Entry) (layout : Layout) (table : Path → Engine × Content),
        x.Published ⟨"d"⟩ (x'.files :: x.passed ++ [partitionedFiles]) x'.table.current entries layout table ∧
        ((x'.table.current.scan .always none none).drain (Artifact.read x'.files 8192)
          ⟨x'.workspace.cache, []⟩).1.rows
          = Plain.rows x'.table.current.dataSchema layout fun file => (table file).2 := by
  have hfirst : (first? partitionedFiles).isSome = true := by decide +kernel
  obtain ⟨⟨x, x'⟩, hfirst⟩ := Option.isSome_iff_exists.mp hfirst
  obtain ⟨h, hrefresh, hfaithful, hintact, hfits⟩ := of_first? hfirst
  have hnamed : ∀ tree ∈ [partitionedFiles], tree.WellNamed := by decide +kernel
  obtain ⟨entries, layout, table, hpublished, -, hscan⟩ :=
    scan_of_refresh h hnamed hrefresh hfaithful hintact (fun file c hc => (of_fits hfits hc).1)
      fun file c hc => (of_fits hfits hc).2
  exact ⟨x, x', h, hrefresh, hfaithful, hintact, hfits, entries, layout, table, hpublished,
    (hscan 8192 []).2⟩

end Session

end SourceTables

import SourceTables.Proofs.Catalog.Isolated

/-!
# `SourceTables.Proofs.Catalog.Undisturbed`: discoveries of a directory

A discovery accounts for each file and each directory that it has found. If the directory gets one more entry,
and no table comes of that entry, nothing but the list of sources without tables is different, provided that no
path that a discovery looks at leads elsewhere because of what it writes, nor any path for the other entries
because of the one.

The theorems:

* `Undisturbed.course`: the files of a directory are converted, and all attempts can be made.
* `Gains.twins`: discoveries with the entry and without it.
* `Twins.same`: what the tables show then.
-/

set_option autoImplicit false

namespace SourceTables

open Workspace (Steady Amid)

/-- What is listed, without one entry. -/
def DirectoryList.without (found : DirectoryList) (p : Path) : DirectoryList :=
  ⟨found.files.filter (· ≠ p), found.directories.filter (· ≠ p)⟩

/-- The files that a discovery converts. -/
def Workspace.sources (w : Workspace) (fs : Files) (maxDepth : Nat) (found : DirectoryList) : List Path :=
  w.supported found
    ++ found.directories.flatMap fun p => (Origin.directory p).sources (w.detection maxDepth) fs

namespace Catalog

/-! ### What a discovery attempts -/

/-- The aims for a file, given the record that it gets. -/
def aimsOf (p : Path) : Option Record → List Aim
  | none => [.error p]
  | some r => (fileTables p r).map .ok

/-- The aims of a discovery. -/
def aims (w : Workspace) (first : Files) (found : DirectoryList) : List Aim :=
  (w.supported found).flatMap (fun p => aimsOf p (w.alone first p))
    ++ found.directories.map fun p => (directoryAttempt p).aim

/-- The attempts for a file depend on its record, not on times. -/
theorem aims_attemptsOf (result : Path × Except Error Record) :
    (attemptsOf result).map Attempt.aim = aimsOf result.1 (Workspace.outcome result).2 := by
  obtain ⟨p, outcome⟩ := result
  cases outcome with
  | error e => rfl
  | ok r =>
    have hnames : fileTables p r.untimed = fileTables p r := by
      unfold fileTables
      rw [Record.artifacts_untimed, List.length_map, List.map_map]
      rfl
    show ((fileTables p r).map Except.ok).map Attempt.aim = (fileTables p r.untimed).map .ok
    rw [List.map_map, hnames]
    rfl

section

variable {w : Workspace} {first : Files} {found : DirectoryList} {extra : Path}

theorem aims_attempts {results : List (Path × Except Error Record)}
    (h : results.map Workspace.outcome = (w.supported found).map fun p => (p, w.alone first p)) :
    (attempts results found.directories).map Attempt.aim = aims w first found := by
  unfold attempts aims
  rw [List.map_append, List.map_flatMap, List.map_map, funext aims_attemptsOf]
  have hfiles := congrArg (List.flatMap fun x => aimsOf x.1 x.2) h
  rw [List.flatMap_map, List.flatMap_map] at hfiles
  rw [← hfiles]
  rfl

/-- The tables of a file that was converted need no more conversions. -/
theorem eligible_file {off : Set Location} {maxDepth : Nat} {p : Path} (hp : p ∈ w.supported found)
    {done : Set Path} (hdone : p ∈ done) {a : Aim} (ha : a ∈ aimsOf p (w.alone first p)) :
    a.Eligible w first off (w.sources first maxDepth found) maxDepth done ∧
      a.after w first maxDepth done = done := by
  cases halone : w.alone first p with
  | none =>
    rw [halone] at ha
    obtain rfl := List.mem_singleton.mp ha
    exact ⟨trivial, rfl⟩
  | some r =>
    rw [halone] at ha
    obtain ⟨target, htarget, rfl⟩ := List.mem_map.mp ha
    obtain ⟨b, -, rfl⟩ := List.mem_map.mp htarget
    have hown {q : Path} (hq : q ∈ [p]) : q = p := List.mem_singleton.mp hq
    refine ⟨⟨fun _ _ _ => rfl, fun q hq => ?_, List.nodup_singleton p, fun q hq _ => ?_⟩, ?_⟩
    · exact hown hq ▸ List.mem_append_left _ hp
    · rw [hown hq, halone]
      rfl
    · exact Set.union_eq_self_of_subset_right fun q hq => hown hq ▸ hdone

end

/-! ### Discoveries in trees that resemble one another -/

/-- Whether no path that a discovery looks at leads elsewhere because of what it writes, or because of what
stands in some places. -/
structure Undisturbed (w : Workspace) (config : Config) (first : Files) (off : Set Location)
    (found : DirectoryList) : Prop where
  steady : Steady w first off (w.sources first config.partitionMaxDepth found)
  walks : ∀ tree, tree.nodes.Sorted →
    w.Resembles first off (w.sources first config.partitionMaxDepth found) tree →
    ∀ p ∈ found.directories, (w.detection config.partitionMaxDepth).detect tree p
      = (w.detection config.partitionMaxDepth).detect first p

namespace Undisturbed

variable {w : Workspace} {config : Config} {first : Files} {off : Set Location} {found : DirectoryList}

/-- Different files are converted. -/
theorem nodup (h : Undisturbed w config first off found) :
    (w.sources first config.partitionMaxDepth found).Nodup := .of_map _ h.steady.distinct

/-- Directories can be attempted as long as none of their files was converted. -/
theorem eligible_directories (h : Undisturbed w config first off found) {ps : List Path}
    (hps : ps ⊆ found.directories) {done : Set Path}
    (hnodup : (ps.flatMap fun p => (Origin.directory p).sources (w.detection config.partitionMaxDepth)
      first).Nodup)
    (hnew : ∀ p ∈ ps, ∀ q ∈ (Origin.directory p).sources (w.detection config.partitionMaxDepth) first,
      q ∉ done) :
    Eligible w first off (w.sources first config.partitionMaxDepth found) config.partitionMaxDepth done
      (ps.map fun p => (directoryAttempt p).aim) := by
  induction ps generalizing done with
  | nil => trivial
  | cons p rest ih =>
    obtain ⟨hp, hrest⟩ := List.cons_subset.mp hps
    rw [List.flatMap_cons] at hnodup
    obtain ⟨hfirst, hnodup, hdisjoint⟩ := List.nodup_append.mp hnodup
    have hwalk := fun tree hsorted htree => h.walks tree hsorted htree p hp
    refine ⟨⟨hwalk, fun q hq => ?_, hfirst, fun q hq hmem => ?_⟩, ih hrest hnodup fun p' hp' q hq => ?_⟩
    · exact List.mem_append_right _ (List.mem_flatMap.mpr ⟨p, hp, hq⟩)
    · exact absurd hmem (hnew p (.head _) q hq)
    · rintro (hmem | hmem)
      · exact hnew p' (.tail _ hp') q hq hmem
      · exact hdisjoint q hmem q (List.mem_flatMap.mpr ⟨p', hp', hq⟩) rfl

/-- The files of a directory are converted, and all attempts can be made. -/
theorem course (h : Undisturbed w config first off found) {tree : Files} (hsorted : tree.nodes.Sorted)
    (htree : first.AgreesOff off tree) (dir : Path) :
    let converted := w.ensureAll tree (w.supported found)
    (attempts converted.1 found.directories).map Attempt.aim = aims w first found ∧
      Eligible w first off (w.sources first config.partitionMaxDepth found) config.partitionMaxDepth
        { p | p ∈ w.supported found } (aims w first found) ∧
      Course w first off (w.sources first config.partitionMaxDepth found) { p | p ∈ w.supported found }
        (start dir converted.2.1, converted.2.2) := by
  obtain ⟨hfiles, hdirectories, hdisjoint⟩ := List.nodup_append.mp h.nodup
  obtain ⟨houtcomes, hamid, -⟩ := (Amid.start h.steady hsorted htree).ensureAll h.steady
    (fun p hp => List.mem_append_left _ hp) hfiles nofun
  rw [Set.empty_union] at hamid
  refine ⟨aims_attempts houtcomes, eligible_append (fun a ha => ?_) ?_, hamid, nofun⟩
  · obtain ⟨p, hp, ha⟩ := List.mem_flatMap.mp ha
    exact eligible_file hp hp ha
  · exact h.eligible_directories (List.Subset.refl _) hdirectories fun p hp q hq hmem =>
      hdisjoint q hmem q (List.mem_flatMap.mpr ⟨p, hp, hq⟩) rfl

end Undisturbed

/-! ### One more entry -/

/-- Whether two tables with their names show the same: the same columns, and the same rows to every scan that
begins with an empty cache. -/
structure Same (tree tree' : Files) (x y : String × LiveTable) : Prop where
  name : y.1 = x.1
  origin : y.2.origin = x.2.origin
  keys : y.2.current.keys = x.2.current.keys
  schema : y.2.current.schema = x.2.current.schema
  rows : ∀ (predicate : Predicate) (projection : Option (List Nat)) (limit : Option Nat) (batchSize : Nat)
    (r r' : Reading), r.cache.entries = [] → r'.cache.entries = [] →
    let drained := ((x.2.current.scan predicate projection limit).drain (Artifact.read tree batchSize) r).1
    let drained' := ((y.2.current.scan predicate projection limit).drain (Artifact.read tree' batchSize) r').1
    drained'.rows = drained.rows ∧ drained'.failure = drained.failure

/-- Tables that are the same but for times show the same. -/
theorem Twins.same {w : Workspace} {first : Files} {off off' : Set Location} {sources sources' : List Path}
    {extra : Path} {done done' : Set Path} {state state' : Catalog × Files}
    (hsteady : Steady w first off sources) (hsteady' : Steady w first off' sources')
    (h : Twins w first off off' sources sources' extra done done' state state') :
    List.Forall₂ (Same state.2 state'.2) state.1.tables.entries state'.1.tables.entries := by
  obtain ⟨hlength, halike⟩ := List.forall₂_iff_zip.mp h.alike
  refine List.forall₂_iff_zip.mpr ⟨hlength, fun {x y} hxy => ?_⟩
  obtain ⟨hname, horigin, hshown⟩ := halike hxy
  obtain ⟨hx, hy⟩ := List.of_mem_zip hxy
  refine ⟨hname, horigin, ?_, ?_, fun predicate projection limit batchSize r r' hr hr' => ?_⟩
  · show y.2.current.untimed.keys = x.2.current.untimed.keys
    rw [hshown]
  · show y.2.current.untimed.schema = x.2.current.untimed.schema
    rw [hshown]
  · refine Snapshot.rows_untimed hshown (fun a ha => ?_) (fun a ha => ?_) (fun a ha => ?_) hr hr' predicate
      projection limit batchSize
    · obtain ⟨q, hq, r, hr, har⟩ := h.course.sourced x hx a ha
      exact h.course.amid.intact hq hr har
    · obtain ⟨q, hq, r, hr, har⟩ := h.course'.sourced y hy a ha
      exact h.course'.amid.intact hq hr har
    · obtain ⟨q, hq, r, hr, har⟩ := h.course.sourced x hx a ha
      exact h.course.amid.content_eq hsteady hsteady' h.course'.amid hq (h.subset hq) hr har

end Catalog

end SourceTables

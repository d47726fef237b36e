import SourceTables.Proofs.LiveTable.Publish

/-!
# `SourceTables.Proofs.LiveTable.Session`: a table through everything that happens beside it

A session is a table of a directory with the workspace and the files. Sources and artifacts may change, the
settings too, other tables may convert and read, and the table itself may be refreshed with or without
success. No pass is called off in the middle.

The invariant `Kept` says that every record was made by a conversion, every cached content was read of an
artifact that was as recorded, and the current snapshot follows from what its artifacts held.

The theorems:

* `Kept.publishes`: a pass that succeeds publishes the layout that it has found.
* `Kept.step`: whatever happens keeps the invariant.
* `kept_of_history`: the invariant holds in every history.
-/

set_option autoImplicit false

namespace SourceTables

open Artifact (Content)
open Workspace (Accounted Cached Held isIntact)

namespace Workspace

/-! ### What conversions do to the cache -/

variable {w : Workspace} {fs : Files}

/-- Forgetting what was read of a record's artifacts keeps nothing new. -/
theorem entries_invalidate_subset (w : Workspace) (r : Record) :
    (w.invalidate r).cache.entries ⊆ w.cache.entries := by
  have fold (artifacts : List ArtifactRef) (c : BatchCache Content) :
      (artifacts.foldl (fun c a => (c.invalidate a.fingerprint).2) c).entries ⊆ c.entries := by
    induction artifacts generalizing c with
    | nil => exact List.Subset.refl _
    | cons a rest ih => exact List.Subset.trans (ih _) (c.entries_invalidate_subset a.fingerprint)
  exact fold r.artifacts w.cache

/-- A record that is entered brings nothing into the cache. -/
theorem entries_enter_subset (w : Workspace) (r : Record) : (w.enter r).cache.entries ⊆ w.cache.entries := by
  unfold enter
  split
  next previous ledger _ =>
    cases previous with
    | none => exact List.Subset.refl _
    | some previous => exact entries_invalidate_subset { w with ledger } previous

/-- A conversion brings nothing into the cache. -/
theorem entries_ensure_subset (w : Workspace) (fs : Files) (p : Path) :
    (w.ensure fs p).2.1.cache.entries ⊆ w.cache.entries := by
  unfold ensure
  split
  · exact List.Subset.refl _
  · next source _ =>
    cases hrun : w.ensureVersion fs p source with | mk result after =>
    obtain ⟨w', fs'⟩ := after
    cases ensureVersion_cases hrun with
    | unsupported | current | failed | unrecorded => exact List.Subset.refl _
    | converted _ _ r => exact entries_enter_subset _ r

theorem entries_ensureFrom_subset (w : Workspace) (fs : Files) (runs : List SharedRun) (position : Nat)
    (ps : List Path) : (w.ensureFrom fs runs position ps).2.1.cache.entries ⊆ w.cache.entries := by
  induction ps generalizing w fs runs position with
  | nil => exact List.Subset.refl _
  | cons p rest ih =>
    unfold ensureFrom
    split
    · exact ih _ _ _ _
    · exact List.Subset.trans (ih _ _ _ _) (w.entries_ensure_subset fs p)

/-- A ledger that cannot be saved stays as it is. -/
theorem trySave_cases (w : Workspace) (fs : Files) :
    w.trySave fs = (w, fs) ∨ w.save fs = .ok (w.trySave fs) := by
  unfold trySave
  cases w.save fs with
  | error e => exact .inl rfl
  | ok after => exact .inr rfl

@[simp] theorem cache_trySave (w : Workspace) (fs : Files) : (w.trySave fs).1.cache = w.cache := by
  unfold trySave save
  split
  · cases w.ledger.save fs <;> rfl
  · rfl

end Workspace

/-- A candidate brings nothing into the cache. -/
theorem LiveTable.entries_candidate_subset (t : LiveTable) (w : Workspace) (fs : Files)
    (calledOff : Checkpoint → Bool) :
    (t.candidate w fs calledOff).2.1.cache.entries ⊆ w.cache.entries := by
  unfold candidate
  split
  · exact List.Subset.refl _
  · split
    · exact List.Subset.refl _
    · exact w.entries_ensureFrom_subset fs [] 0 _

/-- A table with the workspace that keeps its sources converted, and the files. -/
structure Session where
  table : LiveTable
  workspace : Workspace
  files : Files

namespace Session

/-! ### Histories -/

/-- What a pass that nobody calls off has built, with the workspace and the files that it leaves. -/
def candidate (x : Session) : Except Error Snapshot × Workspace × Files :=
  x.table.candidate x.workspace x.files LiveTable.uninterrupted

/-- The files as a pass leaves them, and as it goes through them. -/
def passed (x : Session) : List Files := x.table.passed x.workspace x.files

/-- Whether a pass that nobody calls off leads to a session and has some outcome. The artifacts of a
candidate are as they were recorded. -/
structure Refreshes (x : Session) (outcome : Except Error Bool) (x' : Session) : Prop where
  run : x.table.refresh x.workspace x.files LiveTable.uninterrupted
    = (outcome, x'.table, x'.workspace, x'.files)
  intact : ∀ s, x.candidate.1 = .ok s → s.Intact x.candidate.2.2

/-- What can happen in a session, with the new trees of files. Edits and conversions leave the ledger file
as it is, and a ledger file that was written is found. -/
inductive Step (dir : Path) : Session → List Files → Session → Prop
  /-- Something happens to the files or the workspace by which nothing gets into the cache. -/
  | work {t : LiveTable} {w w' : Workspace} {fs fs' : Files} (hstep : Workspace.Step dir w fs w' fs')
    (hcache : w'.cache.entries ⊆ w.cache.entries) : Step dir ⟨t, w, fs⟩ [fs'] ⟨t, w', fs'⟩
  /-- The table is marked or asked, or built again. -/
  | ask {t t' : LiveTable} {w : Workspace} {fs : Files} (horigin : t'.origin = t.origin)
    (hcurrent : t'.current = t.current ∨ t'.current = .empty) : Step dir ⟨t, w, fs⟩ [] ⟨t', w, fs⟩
  /-- An artifact of some table is loaded, which is as recorded if it can be read. -/
  | load {t : LiveTable} {w : Workspace} {fs : Files} (a : ArtifactRef) (batchSize : Nat)
    (opened : List Path)
    (hread : ∀ c, Artifact.read fs batchSize a.path = .ok c → isIntact fs a = true) :
    Step dir ⟨t, w, fs⟩ []
      ⟨t, { w with cache := (Reading.load (Artifact.read fs batchSize) ⟨w.cache, opened⟩ a).2.cache }, fs⟩
  | refresh {x x' : Session} {outcome : Except Error Bool} (h : x.Refreshes outcome x')
    (hfile : ∀ tree ∈ x.passed,
      tree.content (Ledger.initial dir).file = x.files.content (Ledger.initial dir).file)
    (hfound : ∀ saved, x.candidate.2.1.save x.candidate.2.2 = .ok saved →
      x.candidate.2.1.ledger.isDirty = true → saved.2.exists? (Ledger.initial dir).file = true) :
    Step dir x (x'.files :: x.passed) x'

/-- What has happened since a ledger without records, with all trees of files that there were. -/
inductive History (dir root : Path) : List Files → Session → Prop
  | start {trees : List Files} {t : LiveTable} {w : Workspace} {fs : Files}
    (h : Workspace.History dir trees w fs) (hcache : w.cache.entries = [])
    (horigin : t.origin = .directory root) (hcurrent : t.current = .empty) :
    History dir root trees ⟨t, w, fs⟩
  | step {trees new : List Files} {x x' : Session} (h : History dir root trees x)
    (hstep : Step dir x new x') : History dir root (new ++ trees) x'

/-! ### What a session knows of its past -/

/-- Whether all that a session relies on follows from its past. -/
structure Kept (dir root : Path) (trees : List Files) (x : Session) : Prop where
  accounted : Accounted dir trees x.workspace x.files
  cache : x.workspace.cache.Holds (Cached trees)
  origin : x.table.origin = .directory root
  current : x.table.current.Sound trees

/-- How a session looks for partitions. -/
def detection (x : Session) : Detection := x.workspace.detection x.table.maxDepth

/-- The files of a layout, each with the tree in which a pass finds it. -/
def found (x : Session) (layout : Layout) : List (Path × Files) :=
  layout.files.zip (x.workspace.passed x.files layout.files)

/-- Whether a snapshot shows the layout that is found in a session. -/
structure Published (x : Session) (root : Path) (trees : List Files) (s : Snapshot) (entries : List Entry)
    (layout : Layout) (table : Path → Engine × Content) : Prop where
  listing : x.detection.listing x.files root = .ok entries
  detected : x.detection.detect x.files root = .ok layout
  covers : x.detection.Covers root entries layout
  nodup : (layout.files.map Path.components).Nodup
  publishes : s.Publishes x.workspace trees (x.found layout) layout table

variable {dir root : Path} {trees new : List Files} {x x' : Session}

/-- The ways in which a pass ends. -/
theorem Refreshes.cases {outcome : Except Error Bool} (h : x.Refreshes outcome x') :
    x'.table.origin = x.table.origin ∧
      ((∃ e, x.candidate.1 = .error e ∧ outcome = .error e ∧ x'.table.current = x.table.current ∧
          (x'.workspace, x'.files) = x.candidate.2) ∨
        ∃ s swapped, x.candidate.1 = .ok s ∧ outcome = .ok swapped ∧
          (x'.table.current = s ∨
            x'.table.current = x.table.current ∧ x.table.current.sameContent s = true) ∧
          (x'.workspace, x'.files) = x.candidate.2.1.trySave x.candidate.2.2) := by
  have hfinish : ({ x.table with stale := false } : LiveTable).finishPass x.candidate.2.1 x.candidate.2.2
      x.table.stale x.candidate.1 = (outcome, x'.table, x'.workspace, x'.files) := h.run
  have hcases := LiveTable.finishPass_cases hfinish
  exact hcases

/-- A pass brings nothing into the cache. -/
theorem Refreshes.entries_subset {outcome : Except Error Bool} (h : x.Refreshes outcome x') :
    x'.workspace.cache.entries ⊆ x.workspace.cache.entries := by
  have hcandidate := x.table.entries_candidate_subset x.workspace x.files LiveTable.uninterrupted
  obtain ⟨-, ⟨e, -, -, -, hafter⟩ | ⟨s, swapped, -, -, -, hafter⟩⟩ := h.cases
  · have hworkspace : x'.workspace = x.candidate.2.1 := congrArg Prod.fst hafter
    rw [hworkspace]
    exact hcandidate
  · have hworkspace : x'.workspace = (x.candidate.2.1.trySave x.candidate.2.2).1 := congrArg Prod.fst hafter
    rw [hworkspace, Workspace.cache_trySave]
    exact hcandidate

/-! ### Passes -/

section

variable (h : Kept dir root trees x) (hnamed : x.files.WellNamed)

include h hnamed

/-- A layout that is found is that of the directory, and its files are different. -/
theorem Kept.of_layout {layout : Layout}
    (hlayout : x.table.origin.layout x.detection x.files = .ok layout) :
    x.detection.detect x.files root = .ok layout ∧
      ∃ entries, x.detection.listing x.files root = .ok entries ∧ x.detection.Covers root entries layout ∧
        (layout.files.map Path.components).Nodup := by
  rw [h.origin] at hlayout
  exact ⟨hlayout, Detection.of_detect hnamed hlayout⟩

/-- What a pass has left before the ledger is saved is accounted for. -/
theorem Kept.accounted_candidate (hfaithful : Faithful (x.passed ++ trees))
    (hfile : ∀ tree ∈ x.passed,
      tree.content (Ledger.initial dir).file = x.files.content (Ledger.initial dir).file) :
    Accounted dir (x.passed ++ trees) x.candidate.2.1 x.candidate.2.2 := by
  unfold candidate passed at *
  cases hlayout : x.table.origin.layout x.detection x.files with
  | error e =>
    rw [LiveTable.candidate_of_error hlayout]
    exact h.accounted.mono (List.subset_append_right _ _)
  | ok layout =>
    obtain ⟨-, entries, -, -, hnodup⟩ := h.of_layout hnamed hlayout
    rw [LiveTable.passed_eq hlayout hnodup] at hfaithful hfile ⊢
    rw [LiveTable.candidate_eq hlayout hnodup]
    have hconverted := h.accounted.ensureEach (hfaithful.mono (List.subset_cons_self _ _))
      fun tree htree => hfile tree (.tail _ htree)
    exact hconverted.edit (Files.content_tick ..)

/-- A candidate publishes the layout that its pass has found. -/
theorem Kept.publishes_candidate (hfaithful : Faithful (x.passed ++ trees)) {s : Snapshot}
    (hbuilt : x.candidate.1 = .ok s) (hintact : s.Intact x.candidate.2.2) :
    ∃ entries layout table, x.Published root (x.passed ++ trees) s entries layout table := by
  cases hlayout : x.table.origin.layout x.detection x.files with
  | error e =>
    unfold candidate at hbuilt
    rw [LiveTable.candidate_of_error hlayout] at hbuilt
    cases hbuilt
  | ok layout =>
    obtain ⟨hdetect, entries, hlisting, hcovers, hnodup⟩ := h.of_layout hnamed hlayout
    obtain ⟨table, hpublishes⟩ := LiveTable.publishes_of_candidate h.origin hlayout hnodup hfaithful
      h.accounted.here h.accounted.memory h.current hbuilt hintact
    exact ⟨entries, layout, table, hlisting, hdetect, hcovers, hnodup, hpublishes⟩

/-- A pass that succeeds publishes the layout that it has found. -/
theorem Kept.publishes (hfaithful : Faithful (x.passed ++ trees)) {swapped : Bool}
    (hrefresh : x.Refreshes (.ok swapped) x') :
    ∃ entries layout table,
      x.Published root (x.passed ++ trees) x'.table.current entries layout table := by
  obtain ⟨-, ⟨e, -, houtcome, -⟩ | ⟨s, -, hbuilt, -, hcurrent, -⟩⟩ := hrefresh.cases
  · cases houtcome
  · obtain ⟨entries, layout, table, hpublished⟩ :=
      h.publishes_candidate hnamed hfaithful hbuilt (hrefresh.intact s hbuilt)
    refine ⟨entries, layout, table, hpublished.listing, hpublished.detected, hpublished.covers,
      hpublished.nodup, ?_⟩
    obtain rfl | ⟨hcurrent, hsame⟩ := hcurrent
    · exact hpublished.publishes
    · rw [hcurrent]
      exact hpublished.publishes.of_sameContent hfaithful
        (h.current.mono (List.subset_append_right _ _)) hpublished.covers.spelled hsame

/-- A pass keeps the invariant. -/
theorem Kept.refresh (hfaithful : Faithful (x'.files :: x.passed ++ trees)) {outcome : Except Error Bool}
    (hrefresh : x.Refreshes outcome x')
    (hfile : ∀ tree ∈ x.passed,
      tree.content (Ledger.initial dir).file = x.files.content (Ledger.initial dir).file)
    (hfound : ∀ saved, x.candidate.2.1.save x.candidate.2.2 = .ok saved →
      x.candidate.2.1.ledger.isDirty = true → saved.2.exists? (Ledger.initial dir).file = true) :
    Kept dir root (x'.files :: x.passed ++ trees) x' := by
  have hpassed := hfaithful.mono (List.subset_cons_self _ _)
  have hsub : trees ⊆ x'.files :: x.passed ++ trees := List.subset_append_right _ _
  have haccounted := h.accounted_candidate hnamed hpassed hfile
  have hcache : x'.workspace.cache.Holds (Cached (x'.files :: x.passed ++ trees)) := fun e he =>
    (h.cache e (hrefresh.entries_subset he)).mono hsub
  obtain ⟨horigin, ⟨e, -, -, hcurrent, hafter⟩ | ⟨s, swapped, -, rfl, -, hafter⟩⟩ := hrefresh.cases
  · have hworkspace : x'.workspace = x.candidate.2.1 := congrArg Prod.fst hafter
    have hfiles : x'.files = x.candidate.2.2 := congrArg Prod.snd hafter
    refine ⟨?_, hcache, horigin.trans h.origin, ?_⟩
    · rw [hworkspace, hfiles]
      exact haccounted.mono (List.subset_cons_self _ _)
    · rw [hcurrent]
      exact h.current.mono hsub
  · have hworkspace : x'.workspace = (x.candidate.2.1.trySave x.candidate.2.2).1 := congrArg Prod.fst hafter
    have hfiles : x'.files = (x.candidate.2.1.trySave x.candidate.2.2).2 := congrArg Prod.snd hafter
    obtain ⟨entries, layout, table, hpublished⟩ := h.publishes hnamed hpassed hrefresh
    refine ⟨?_, hcache, horigin.trans h.origin, ?_⟩
    · obtain hkept | hsaved := x.candidate.2.1.trySave_cases x.candidate.2.2
      · rw [hworkspace, hfiles, hkept]
        exact haccounted.mono (List.subset_cons_self _ _)
      · rw [hworkspace, hfiles]
        exact haccounted.save hsaved (hfound _ hsaved)
    · exact (hpublished.publishes.sound hpublished.covers.spelled).mono (List.subset_cons_self _ _)

end

/-! ### Whatever happens -/

/-- What is loaded of an artifact that is as recorded can be relied on. -/
theorem Kept.load (h : Kept dir root trees x) {a : ArtifactRef} {batchSize : Nat} {opened : List Path}
    (hread : ∀ c, Artifact.read x.files batchSize a.path = .ok c → isIntact x.files a = true) :
    (Reading.load (Artifact.read x.files batchSize) ⟨x.workspace.cache, opened⟩ a).2.cache.Holds
      (Cached trees) := by
  cases hload : Reading.load (Artifact.read x.files batchSize) ⟨x.workspace.cache, opened⟩ a with
  | mk outcome after =>
    refine (Reading.of_load (Workspace.respects_cached trees) h.cache (fun _ c hc => ?_) hload).1
    exact Workspace.cached_of_read h.accounted.here (hread c hc) hc

/-- Whatever happens keeps the invariant. -/
theorem Kept.step (h : Kept dir root trees x) (hnamed : ∀ tree ∈ trees, tree.WellNamed)
    (hfaithful : Faithful (new ++ trees)) (hstep : Step dir x new x') :
    Kept dir root (new ++ trees) x' := by
  cases hstep with
  | work hstep hcache =>
    refine ⟨h.accounted.step hfaithful hstep, fun e he => ?_, h.origin, ?_⟩
    · exact (h.cache e (hcache he)).mono (List.subset_cons_self _ _)
    · exact h.current.mono (List.subset_cons_self _ _)
  | ask horigin hcurrent =>
    refine ⟨h.accounted, h.cache, horigin.trans h.origin, ?_⟩
    obtain hcurrent | hcurrent := hcurrent
    · show Snapshot.Sound trees _
      rw [hcurrent]
      exact h.current
    · show Snapshot.Sound trees _
      rw [hcurrent]
      exact Snapshot.sound_empty trees
  | load a batchSize opened hread =>
    exact ⟨h.accounted.of_ledger rfl, h.load hread, h.origin, h.current⟩
  | refresh hrefresh hfile hfound =>
    exact h.refresh (hnamed x.files h.accounted.here) hfaithful hrefresh hfile hfound

/-- The invariant holds in every history. -/
theorem kept_of_history (h : History dir root trees x) (hnamed : ∀ tree ∈ trees, tree.WellNamed)
    (hfaithful : Faithful trees) : Kept dir root trees x := by
  induction h with
  | start h hcache horigin hcurrent =>
    refine ⟨Workspace.accounted_of_history h hfaithful, ?_, horigin, ?_⟩
    · show BatchCache.Holds _ _
      unfold BatchCache.Holds
      rw [hcache]
      exact nofun
    · show Snapshot.Sound _ _
      rw [hcurrent]
      exact Snapshot.sound_empty _
  | step _ hstep ih =>
    have hold := ih (fun tree htree => hnamed tree (List.mem_append_right _ htree))
      (hfaithful.mono (List.subset_append_right _ _))
    exact hold.step (fun tree htree => hnamed tree (List.mem_append_right _ htree)) hfaithful hstep

end Session

end SourceTables

import SourceTables.Proofs.LiveTable.Unchanged

/-!
# `SourceTables.Proofs.LiveTable.Columns`: columns that are taken over

A pass that selects the artifacts which the current snapshot shows does not read their columns again. It
takes over columns that some earlier pass has read, and these are what it would read itself as long as the
sizes and the times of artifacts tell their contents apart.

Sources are told apart in the same way unless their versions have digests. A source that is its own
artifact then counts as another version when it is written over in place, with its size and time kept, but
as an artifact it does not.

The theorems:

* `columns_of_sameSelection`: artifacts that agree have the columns that they had.
* `columns_of_run`: the columns of every candidate are those that its artifacts have.
* `not_columns_of_digests`: with digests of sources alone they need not be.
-/

set_option autoImplicit false

namespace SourceTables

open Workspace (isIntact)

/-- Whether fingerprints tell contents apart, for some paths in each of some trees. -/
def Fingerprint.Tells (withHash : Bool) (reads : List (Files × List Path)) : Prop :=
  ∀ read ∈ reads, ∀ later ∈ reads, ∀ p ∈ read.2, ∀ q ∈ later.2, ∀ f g : Fingerprint,
    compute read.1 p withHash = .ok f → compute later.1 q withHash = .ok g → f.same g = true →
      later.1.content q = read.1.content p

/-- Whether fingerprints tell contents apart, looked up. -/
def Fingerprint.tells (withHash : Bool) (reads : List (Files × List Path)) : Bool :=
  reads.all fun read => reads.all fun later => read.2.all fun p => later.2.all fun q =>
    match compute read.1 p withHash, compute later.1 q withHash with
    | .ok f, .ok g => !f.same g || later.1.content q = read.1.content p
    | _, _ => true

theorem Fingerprint.tells_iff {withHash : Bool} {reads : List (Files × List Path)} :
    tells withHash reads = true ↔ Tells withHash reads := by
  simp only [tells, Tells, List.all_eq_true]
  refine forall₂_congr fun read _ => forall₂_congr fun later _ => forall₂_congr fun p _ =>
    forall₂_congr fun q _ => ?_
  constructor
  · intro h f g hf hg hsame
    rw [hf, hg] at h
    simpa [hsame] using h
  · intro h
    split
    · next f g hf hg =>
      by_cases hsame : f.same g = true
      · simp [h f g hf hg hsame]
      · simp [hsame]
    · rfl

theorem Fingerprint.Tells.mono {withHash : Bool} {reads reads' : List (Files × List Path)}
    (h : Tells withHash reads')
    (hsub : ∀ read ∈ reads, ∃ read' ∈ reads', read'.1 = read.1 ∧ read.2 ⊆ read'.2) :
    Tells withHash reads := by
  intro read hread later hlater p hp q hq f g hf hg
  obtain ⟨read', hread', heq, hpaths⟩ := hsub read hread
  obtain ⟨later', hlater', heq', hpaths'⟩ := hsub later hlater
  rw [← heq] at hf ⊢
  rw [← heq'] at hg ⊢
  exact h read' hread' later' hlater' p (hpaths hp) q (hpaths' hq) f g hf hg

namespace Snapshot

/-- The paths of the artifacts of a snapshot. -/
def artifactFiles (s : Snapshot) : List Path := s.artifacts.map ArtifactRef.path

/-- The paths of the sources of a snapshot. -/
def sourceFiles (s : Snapshot) : List Path := s.conversions.values.map fun e => e.record.path

/-- Whether the columns of a snapshot are those that its artifacts have in a tree: read in the order of their
paths and merged, without those that keys displace. -/
def ShowsColumns (fs : Files) (s : Snapshot) : Prop :=
  ∃ schemas, (LiveTable.artifactPaths s.partitions).mapM (Artifact.schema fs) = .ok schemas ∧
    s.dataSchema = dataColumns s.keys (Schema.merge schemas)

/-! ### Artifacts that agree -/

variable {fs before : Files} {s c : Snapshot}

/-- Artifacts that agree, in the same order, are read at the same places in the order of paths. -/
theorem forall₂_artifactPaths (hsame : List.Forall₂ (fun a b => a.same b = true) c.artifacts s.artifacts) :
    List.Forall₂ (fun q p => (∃ b ∈ c.artifacts, b.path = q) ∧ (∃ a ∈ s.artifacts, a.path = p) ∧
        q.components = p.components)
      (LiveTable.artifactPaths c.partitions) (LiveTable.artifactPaths s.partitions) := by
  have pairs (s : Snapshot) : (s.partitions.flatMap fun entry =>
      entry.artifacts.map fun a => (a.path.components, a.path))
        = s.artifacts.map fun a => (a.path.components, a.path) := by
    rw [artifacts, List.map_flatMap]
  unfold LiveTable.artifactPaths
  rw [pairs, pairs]
  have hkeys : (c.artifacts.map fun a => (a.path.components, a.path)).map Prod.fst
      = (s.artifacts.map fun a => (a.path.components, a.path)).map Prod.fst := by
    rw [List.map_map, List.map_map, ← List.forall₂_eq_eq_eq]
    refine List.forall₂_map_left_iff.mpr (List.forall₂_map_right_iff.mpr (hsame.imp fun b a hab => ?_))
    rw [ArtifactRef.same, Bool.and_eq_true, Bool.and_eq_true] at hab
    exact Path.same_iff.mp hab.1.2
  have hentries := Keyed.keys_ofList_congr hkeys
  unfold Keyed.keys at hentries
  rw [← List.forall₂_eq_eq_eq] at hentries
  replace hentries := List.forall₂_map_left_iff.mp (List.forall₂_map_right_iff.mp hentries)
  refine List.forall₂_map_left_iff.mpr (List.forall₂_map_right_iff.mpr ?_)
  refine Outcome.forall₂_imp_of_mem hentries fun e he e' he' hkey => ?_
  obtain ⟨b, hb, rfl⟩ := List.mem_map.mp (Keyed.mem_ofList he)
  obtain ⟨a, ha, rfl⟩ := List.mem_map.mp (Keyed.mem_ofList he')
  exact ⟨⟨b, hb, rfl⟩, ⟨a, ha, rfl⟩, hkey⟩

/-- Artifacts that agree have the columns that they had, as long as they are as they were recorded. -/
theorem columns_of_sameSelection
    (htells : Fingerprint.Tells false [(before, c.artifactFiles), (fs, s.artifactFiles)])
    (hbefore : c.Intact before) (hintact : s.Intact fs)
    (hselection : LiveTable.sameSelection c s.keys s.partitions = true) (h : c.ShowsColumns before)
    (hdata : s.dataSchema = c.dataSchema) : s.ShowsColumns fs := by
  simp only [LiveTable.sameSelection, Bool.and_eq_true, beq_iff_eq] at hselection
  obtain ⟨⟨hkeys, hlength⟩, hall⟩ := hselection
  have hsame : List.Forall₂ (fun a b => a.same b = true) c.artifacts s.artifacts :=
    List.rel_flatMap (forall₂_of_all_zip hlength hall) fun _ _ h => Record.forall₂_of_sameArtifacts h
  obtain ⟨schemas, hschemas, hcolumns⟩ := h
  refine ⟨schemas, ?_, by rw [hdata, hcolumns, hkeys]⟩
  rw [Outcome.mapM_eq_ok] at hschemas ⊢
  refine (Outcome.forall₂_trans (forall₂_artifactPaths hsame).flip hschemas).imp ?_
  rintro p schema ⟨q, -, ⟨⟨b, hb, rfl⟩, ⟨a, ha, rfl⟩, hcomponents⟩, hread⟩
  -- The artifact of the same path that `b` agrees with has the fingerprint of `a`: both are as recorded.
  obtain ⟨a', ha', hagree⟩ := Outcome.exists_of_forall₂ hsame hb
  have hfingerprint := ArtifactRef.fingerprint_of_same hagree
  rw [ArtifactRef.same, Bool.and_eq_true, Bool.and_eq_true] at hagree
  have hpath : a'.path.same a.path = true :=
    Path.same_iff.mpr ((Path.same_iff.mp hagree.1.2).symm.trans hcomponents)
  have hshared := Workspace.same_of_isIntact (hintact a' ha') (hintact a ha) hpath
  obtain ⟨f, hf, hfb⟩ := Workspace.compute_of_isIntact (hbefore b hb)
  obtain ⟨g, hg, hga⟩ := Workspace.compute_of_isIntact (hintact a ha)
  have hfg : f.same g = true := Fingerprint.same_trans
    (Fingerprint.same_trans (Fingerprint.same_trans hfb hfingerprint) hshared) (Fingerprint.same_symm hga)
  have hcontent : fs.content a.path = before.content b.path :=
    htells _ (.head _) _ (.tail _ (.head _)) _ (List.mem_map_of_mem hb) _ (List.mem_map_of_mem ha)
      f g hf hg hfg
  unfold Artifact.schema at hread ⊢
  cases hwhole : Artifact.content before b.path with
  | error e =>
    rw [hwhole] at hread
    cases hread
  | ok whole =>
    rw [hwhole] at hread
    rw [Artifact.content_congr hcontent hcomponents.symm hwhole]
    exact hread

/-- Columns that are read in a tree are those that artifacts have there. -/
theorem showsColumns_of_mergedColumns {keys : List PartitionKey} {partitions : List PartitionEntry}
    {m : LedgerMap} {columns : Schema} {now : Nat} (h : LiveTable.mergedColumns fs partitions = .ok columns) :
    (build keys partitions m columns now).ShowsColumns fs := by
  unfold LiveTable.mergedColumns at h
  cases hschemas : (LiveTable.artifactPaths partitions).mapM (Artifact.schema fs) with
  | error e =>
    rw [hschemas] at h
    cases h
  | ok schemas =>
    rw [hschemas] at h
    cases h
    exact ⟨schemas, hschemas, rfl⟩

theorem showsColumns_tick : s.ShowsColumns fs.tick ↔ s.ShowsColumns fs := by
  have hschema : Artifact.schema fs.tick = Artifact.schema fs := by
    funext p
    unfold Artifact.schema
    rw [Artifact.content_tick]
  unfold ShowsColumns
  rw [hschema]

end Snapshot

namespace Session

/-! ### Runs -/

/-- A run of edits and passes from a table that was not built, with each pass that had a candidate: the tree
in which it selected artifacts, and the candidate. Between passes the files and the workspace may become
anything, so that a pass without a candidate is like an edit. -/
inductive Run : List (Files × Snapshot) → Session → Prop
  | start {x : Session} (hempty : x.table.current = .empty) : Run [] x
  | edit {passes : List (Files × Snapshot)} {x x' : Session} (h : Run passes x)
    (hcurrent : x'.table.current = x.table.current) : Run passes x'
  /-- The artifacts of the candidate are as they were recorded. -/
  | refresh {passes : List (Files × Snapshot)} {x x' : Session} {outcome : Except Error Bool} {s : Snapshot}
    (h : Run passes x) (hrun : x.refreshed = (outcome, x')) (hbuilt : x.candidate.1 = .ok s)
    (hintact : s.Intact x.candidate.2.2) : Run ((x.candidate.2.2, s) :: passes) x'

/-- The artifacts that passes have selected, each with the tree. -/
def artifactReads (passes : List (Files × Snapshot)) : List (Files × List Path) :=
  passes.map fun pass => (pass.1, pass.2.artifactFiles)

/-- The sources that passes have converted, each with the tree. -/
def sourceReads (passes : List (Files × Snapshot)) : List (Files × List Path) :=
  passes.map fun pass => (pass.1, pass.2.sourceFiles)

/-- If versions of sources have no digests, and all artifacts are sources, it is enough that versions of
sources tell contents apart. -/
theorem tells_of_sources {passes : List (Files × Snapshot)}
    (hnative : ∀ pass ∈ passes, pass.2.artifactFiles ⊆ pass.2.sourceFiles)
    (h : Fingerprint.Tells false (sourceReads passes)) : Fingerprint.Tells false (artifactReads passes) := by
  refine h.mono fun read hread => ?_
  obtain ⟨pass, hpass, rfl⟩ := List.mem_map.mp hread
  exact ⟨_, List.mem_map_of_mem hpass, rfl, hnative pass hpass⟩

variable {passes : List (Files × Snapshot)} {x x' : Session} {s : Snapshot}

/-- Whether the current snapshot is that of no pass yet, or shows the columns that its artifacts had in the
tree of some pass. -/
def Shown (passes : List (Files × Snapshot)) (x : Session) : Prop :=
  x.table.current = .empty ∨ ∃ fs, (fs, x.table.current) ∈ passes ∧ x.table.current.Intact fs ∧
    x.table.current.ShowsColumns fs

/-- A pass shows the columns that its artifacts have. -/
theorem Shown.columns (h : Shown passes x) (hbuilt : x.candidate.1 = .ok s)
    (hintact : s.Intact x.candidate.2.2)
    (htells : Fingerprint.Tells false (artifactReads ((x.candidate.2.2, s) :: passes))) :
    s.ShowsColumns x.candidate.2.2 := by
  obtain ⟨layout, results, fs, hassemble, hfiles, -, -⟩ := assemble_of_candidate hbuilt
  obtain ⟨-, partitions, columns, -, hcolumns, hs⟩ := LiveTable.assemble_eq_ok.mp hassemble
  rw [hfiles] at hintact htells ⊢
  unfold LiveTable.columns at hcolumns
  split at hcolumns
  · next htaken =>
    -- The columns are taken over: they were read in the tree of some pass.
    obtain ⟨hselection, hknown⟩ := Bool.and_eq_true_iff.mp htaken
    obtain hempty | ⟨before, hpass, hbefore, hshown⟩ := h
    · rw [hempty] at hknown
      cases hknown
    · cases hcolumns
      have hdata : s.dataSchema = x.table.current.dataSchema := by
        obtain ⟨schemas, -, hdata⟩ := hshown
        have hkeys : x.table.current.keys = layout.keys := by
          simp only [LiveTable.sameSelection, Bool.and_eq_true, beq_iff_eq] at hselection
          exact hselection.1.1
        rw [← hs]
        show Snapshot.dataColumns layout.keys _ = _
        rw [hdata, hkeys, Snapshot.dataColumns_dataColumns]
      refine Snapshot.columns_of_sameSelection (htells.mono fun read hread => ?_) hbefore hintact ?_ hshown
        hdata
      · obtain rfl | hread := List.mem_cons.mp hread
        · exact ⟨_, List.mem_map_of_mem (.tail _ hpass), rfl, List.Subset.refl _⟩
        · obtain rfl := List.mem_singleton.mp hread
          exact ⟨_, .head _, rfl, List.Subset.refl _⟩
      · rw [← hs]
        exact hselection
  · rw [Snapshot.showsColumns_tick, ← hs]
    exact Snapshot.showsColumns_of_mergedColumns hcolumns

/-- In every run the current snapshot shows the columns that its artifacts had. -/
theorem shown_of_run (h : Run passes x) (htells : Fingerprint.Tells false (artifactReads passes)) :
    Shown passes x := by
  induction h with
  | start hempty => exact .inl hempty
  | edit _ hcurrent ih =>
    unfold Shown
    rw [hcurrent]
    exact ih htells
  | @refresh passes x x' outcome s _ hrun hbuilt hintact ih =>
    have hbefore := ih (htells.mono fun read hread => ⟨read, .tail _ hread, rfl, List.Subset.refl _⟩)
    have hcolumns := hbefore.columns hbuilt hintact htells
    have hfinish := finishPass_of_refreshed hrun
    rw [hbuilt] at hfinish
    obtain ⟨-, hcurrent, -⟩ := LiveTable.finishPass_ok { x.table with stale := false } x.candidate.2.1
      x.candidate.2.2 x.table.stale s
    rw [hfinish] at hcurrent
    change x'.table.current = (if x.table.current.sameContent s then x.table.current else s) at hcurrent
    unfold Shown
    rw [hcurrent]
    split
    · exact hbefore.imp_right fun ⟨fs, hpass, hshown⟩ => ⟨fs, .tail _ hpass, hshown⟩
    · exact .inr ⟨_, .head _, hintact, hcolumns⟩

/-- In every run of edits and passes the columns of a candidate are those that its artifacts have at that
moment, also where they are taken over, if sizes and times tell the contents of artifacts apart. -/
theorem columns_of_run (h : Run passes x) (hbuilt : x.candidate.1 = .ok s)
    (hintact : s.Intact x.candidate.2.2)
    (htells : Fingerprint.Tells false (artifactReads ((x.candidate.2.2, s) :: passes))) :
    ∃ schemas,
      (LiveTable.artifactPaths s.partitions).mapM (Artifact.schema x.candidate.2.2) = .ok schemas ∧
        s.dataSchema = Snapshot.dataColumns s.keys (Schema.merge schemas) := by
  have hshown := shown_of_run h (htells.mono fun read hread =>
    ⟨read, .tail _ hread, rfl, List.Subset.refl _⟩)
  exact hshown.columns hbuilt hintact htells

/-! ### Two passes over a source that is its own artifact -/

/-- A file `x.parquet` in `d` with a column. A directory stands where the ledger file would. -/
def columnFiles (column : String) : Files where
  nodes := ⟨[(["d"], .directory), (["d", ".conversions.json"], .directory), (["d", "x.parquet"],
    .file (Artifact.Content.encode .parquet ⟨[⟨column, .int64, true⟩], [[[.int 1]]]⟩) 1)]⟩
  home := []
  clock := 2

/-- Two passes over `d` between which the files become other ones: the session before the first pass with
its candidate, and the session before the second with its own; none if one fails, or if an artifact is not
as it was recorded. -/
def twice? (withHash : Bool) (fs before : Files) : Option ((Session × Snapshot) × Session × Snapshot) :=
  match Workspace.ofDirectory before ⟨"d"⟩ { artifactDir := some ⟨"a"⟩, hashContents := withHash } with
  | .error _ => none
  | .ok w =>
    let x : Session := ⟨.ofOrigin "t" (.directory ⟨"d"⟩) { artifactDir := some ⟨"a"⟩ }, w, before⟩
    let x' : Session := { x.refreshed.2 with files := fs }
    match x.candidate.1, x'.candidate.1 with
    | .ok first, .ok s =>
      if first.artifacts.all (isIntact x.candidate.2.2) && s.artifacts.all (isIntact x'.candidate.2.2) then
        some ((x, first), x', s)
      else none
    | _, _ => none

theorem of_twice? {withHash : Bool} {fs before : Files} {first : Snapshot}
    (h : twice? withHash fs before = some ((x, first), x', s)) :
    Run [(x.candidate.2.2, first)] x' ∧ x'.candidate.1 = .ok s ∧ s.Intact x'.candidate.2.2 ∧
      x'.files = fs := by
  unfold twice? at h
  split at h
  · cases h
  · dsimp only at h
    split at h
    · next first' s' hfirst hs =>
      obtain ⟨hintact, h⟩ := Option.ite_none_right_eq_some.mp h
      rw [Bool.and_eq_true, List.all_eq_true, List.all_eq_true] at hintact
      cases h
      exact ⟨.edit (.refresh (.start rfl) rfl hfirst hintact.1) rfl, hs, hintact.2, rfl⟩
    · cases h

/-- A pass takes over the columns of a file that is the same. -/
theorem columns_of_run_again :
    ∃ passes x s, Run passes x ∧ passes ≠ [] ∧ x.files = columnFiles "a" ∧ x.candidate.1 = .ok s ∧
      s.Intact x.candidate.2.2 ∧
      Fingerprint.Tells false (artifactReads ((x.candidate.2.2, s) :: passes)) ∧
      ∃ schemas,
        (LiveTable.artifactPaths s.partitions).mapM (Artifact.schema x.candidate.2.2) = .ok schemas ∧
          s.dataSchema = Snapshot.dataColumns s.keys (Schema.merge schemas) := by
  have htwice : (twice? false (columnFiles "a") (columnFiles "a")).map (fun ((x, first), x', s) =>
      Fingerprint.tells false (artifactReads [(x'.candidate.2.2, s), (x.candidate.2.2, first)]))
        = some true := by decide +kernel
  obtain ⟨⟨⟨x, first⟩, x', s⟩, htwice, htells⟩ := Option.map_eq_some_iff.mp htwice
  obtain ⟨hrun, hbuilt, hintact, hfiles⟩ := of_twice? htwice
  have htells := Fingerprint.tells_iff.mp htells
  exact ⟨_, x', s, hrun, List.cons_ne_nil _ _, hfiles, hbuilt, hintact, htells,
    columns_of_run hrun hbuilt hintact htells⟩

/-- A pass also takes over the columns of a file that was written over in place, with its size and time
kept. Digests tell the two versions of the source apart, but the references to it as an artifact have
none. -/
theorem not_columns_of_digests :
    ∃ passes x s, Run passes x ∧ x.workspace.hashContents = true ∧ x.candidate.1 = .ok s ∧
      s.Intact x.candidate.2.2 ∧ s.artifactFiles = s.sourceFiles ∧
      Fingerprint.Tells true (sourceReads ((x.candidate.2.2, s) :: passes)) ∧
      ¬ ∃ schemas,
        (LiveTable.artifactPaths s.partitions).mapM (Artifact.schema x.candidate.2.2) = .ok schemas ∧
          s.dataSchema = Snapshot.dataColumns s.keys (Schema.merge schemas) := by
  have htwice : (twice? true (columnFiles "b") (columnFiles "a")).map (fun ((x, first), x', s) => decide
      (x'.workspace.hashContents = true ∧ s.artifactFiles = s.sourceFiles ∧
        Fingerprint.tells true (sourceReads [(x'.candidate.2.2, s), (x.candidate.2.2, first)]) = true ∧
        ((LiveTable.artifactPaths s.partitions).mapM (Artifact.schema x'.candidate.2.2)).toOption.map
          (fun schemas => decide (s.dataSchema = Snapshot.dataColumns s.keys (Schema.merge schemas)))
            = some false)) = some true := by decide +kernel
  obtain ⟨⟨⟨x, first⟩, x', s⟩, htwice, hfacts⟩ := Option.map_eq_some_iff.mp htwice
  obtain ⟨hrun, hbuilt, hintact, -⟩ := of_twice? htwice
  obtain ⟨hhash, hnative, htells, hcolumns⟩ := of_decide_eq_true hfacts
  refine ⟨_, x', s, hrun, hhash, hbuilt, hintact, hnative, Fingerprint.tells_iff.mp htells, ?_⟩
  rintro ⟨schemas, hschemas, hdata⟩
  rw [hschemas] at hcolumns
  exact of_decide_eq_false (Option.some.inj hcolumns) hdata

end Session

end SourceTables

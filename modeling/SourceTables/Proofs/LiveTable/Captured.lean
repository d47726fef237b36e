import SourceTables.Proofs.LiveTable.Unchanged
import SourceTables.Proofs.Scan.Left
import SourceTables.Proofs.Scan.Limited
import SourceTables.Proofs.Workspace.Entries

/-!
# `SourceTables.Proofs.LiveTable.Captured`: snapshots that outlive their sources

A snapshot that was published can be scanned at any later time. If its artifacts are the sources, these may
have been written over by then, and nothing but the recorded fingerprints tells that.

A load that opens a file takes what the file holds for what was recorded. As long as every file that is
opened is as it was recorded, a scan of a captured snapshot hands out the rows that the sources held when it
was published, or fails, whatever happens in between; and what is cached can be relied on. The condition is
about opened files only: what is in the cache stays there when the source is written over.

The theorems:

* `of_native_pass`: a pass over columnar sources selects the sources, as they were recorded.
* `Clean.move`: whatever happens keeps the cache sound.
* `Scanning.left`: a scan has left what it has not handed out.
* `rows_of_captured`: the rows of a captured snapshot are those of the time of its publication.
* `not_rows_of_captured`: if a file that was written over is opened, they need not be, and the wrong rows
  are kept for later scans.
-/

set_option autoImplicit false

namespace SourceTables

open Artifact (Content)
open Workspace (Cached Held isIntact)

/-- The files of a layout are different. -/
theorem Origin.nodup_layout {o : Origin} {d : Detection} {fs : Files} {layout : Layout}
    (hnamed : fs.WellNamed) (h : o.layout d fs = .ok layout) : (layout.files.map Path.components).Nodup := by
  cases o with
  | file p table =>
    cases h
    exact List.nodup_singleton _
  | directory root =>
    obtain ⟨_, -, -, hnodup⟩ := Detection.of_detect hnamed h
    exact hnodup

/-- The rows that the artifacts of a snapshot have in a tree, read plainly one after another: those before the
first failure, which comes with them, or up to a limit. -/
def Snapshot.rowsIn (s : Snapshot) (fs : Files) (predicate : Predicate) (projection : Option (List Nat))
    (limit : Option Nat) (batchSize : Nat) : List Row × Option Error :=
  Scan.limited limit (Scan.upToFailure
    ((s.keptArtifacts predicate).map (Scan.artifactRows s projection (Artifact.read fs batchSize))))

namespace Session

/-! ### Passes over columnar sources -/

/-- Whether the sources of a table are all columnar files, and records of such files name the files
themselves as artifacts. -/
structure Native (x : Session) : Prop where
  sources : ∀ layout, x.table.origin.layout x.detection x.files = .ok layout → ∀ file ∈ layout.files,
    Format.native.accepts file = true
  ledger : x.workspace.ledger.records.Passthrough

variable {x x' y y' : Session} {s : Snapshot} {trees new all : List Files} {published : Files}

/-- A pass over columnar sources selects the sources, and they are as recorded. -/
theorem of_native_pass (hnative : x.Native) (hnamed : x.files.WellNamed) (hbuilt : x.candidate.1 = .ok s) :
    s.Intact x.files ∧ ∀ entry ∈ s.partitions,
      entry.artifacts.map (fun a => a.path.components) = entry.partition.files.map Path.components := by
  cases hlayout : x.table.origin.layout x.detection x.files with
  | error e =>
    unfold candidate at hbuilt
    rw [LiveTable.candidate_of_error hlayout] at hbuilt
    cases hbuilt
  | ok layout =>
    have hnodup := Origin.nodup_layout hnamed hlayout
    unfold candidate at hbuilt
    rw [LiveTable.candidate_eq hlayout hnodup] at hbuilt
    obtain ⟨hall, partitions, columns, hpartitions, -, rfl⟩ := LiveTable.assemble_eq_ok.mp hbuilt
    obtain ⟨-, hartifacts⟩ := @Workspace.artifacts_ensureEach x.workspace x.files _
      (hnative.sources layout hlayout) hnative.ledger
    have hentries : ∀ entry ∈ partitions, List.Forall₂ (fun file a =>
        a.path.components = file.components ∧ isIntact x.files a = true) entry.partition.files
          entry.artifacts := by
      intro entry hentry
      obtain ⟨p, hp, hselect⟩ := Outcome.exists_of_forall₂ (Outcome.mapM_eq_ok.mp hpartitions).flip hentry
      -- Each file of the partition has the record that its conversion has returned.
      have hresult : ∀ file ∈ p.files, ∃ r,
          (file, .ok r) ∈ (x.workspace.ensureEach x.files layout.files).1 := by
        intro file hfile
        have hmem : file ∈ layout.files := List.mem_flatMap.mpr ⟨p, hp, hfile⟩
        rw [← Workspace.map_fst_ensureEach x.workspace x.files hnodup] at hmem
        obtain ⟨⟨_, outcome⟩, hresult, rfl⟩ := List.mem_map.mp hmem
        obtain ⟨r, rfl⟩ : ∃ r, outcome = .ok r := hall _ hresult
        exact ⟨r, hresult⟩
      have hget : ∀ file ∈ p.files, ∀ r,
          (file, .ok r) ∈ (x.workspace.ensureEach x.files layout.files).1 → ∃ writtenAs,
            (LiveTable.conversions (x.workspace.ensureEach x.files layout.files).1).get? file.components
              = some ⟨writtenAs, r⟩ := fun file _ r hr =>
        LiveTable.get?_conversions (Workspace.nodup_ensureEach x.workspace x.files hnodup) hr
      obtain ⟨rfl, hselects⟩ := LiveTable.forall₂_of_selectPartition (fun file hfile => by
        obtain ⟨r, hr⟩ := hresult file hfile
        obtain ⟨writtenAs, he⟩ := hget file hfile r hr
        exact ⟨_, he⟩) hselect
      refine Outcome.forall₂_imp_of_mem hselects ?_
      rintro file hfile a - ⟨e, he, ha⟩
      obtain ⟨r, hr⟩ := hresult file hfile
      obtain ⟨writtenAs, he'⟩ := hget file hfile r hr
      obtain rfl : e = ⟨writtenAs, r⟩ := Option.some.inj (he.symm.trans he')
      exact hartifacts file r hr a (LiveTable.mem_of_selectArtifact ha)
    constructor
    · intro a ha
      obtain ⟨entry, hentry, ha⟩ := List.mem_flatMap.mp ha
      obtain ⟨_, -, -, hintact⟩ := Outcome.exists_of_forall₂ (hentries entry hentry).flip ha
      exact hintact
    · intro entry hentry
      rw [← List.forall₂_eq_eq_eq]
      exact List.forall₂_map_left_iff.mpr (List.forall₂_map_right_iff.mpr
        ((hentries entry hentry).flip.imp fun _ _ h => h.1))

/-! ### What happens beside a scan -/

/-- Whether a load of an artifact finds it as recorded, if it opens a file that can be read. -/
def OpensIntact (x : Session) (batchSize : Nat) (a : ArtifactRef) : Prop :=
  (x.workspace.cache.get a.fingerprint).1 = none →
    ∀ c, Artifact.read x.files batchSize a.path = .ok c → isIntact x.files a = true

/-- A session with another cache. -/
def withCache (x : Session) (cache : BatchCache Content) : Session :=
  { x with workspace := { x.workspace with cache } }

/-- What can happen in a session, with the new trees of files. Whatever is opened is as recorded. -/
inductive Move : Session → List Files → Session → Prop
  /-- Sources are written over or converted, settings change, the ledger is saved: anything by which
  nothing gets into the cache. -/
  | work {x x' : Session} (hcache : x'.workspace.cache.entries ⊆ x.workspace.cache.entries) :
    Move x [x'.files] x'
  /-- A pass, whatever its outcome is; it may be called off. -/
  | refresh {x x' : Session} {calledOff : Checkpoint → Bool} {outcome : Except Error Bool}
    (hrun : x.table.refresh x.workspace x.files calledOff = (outcome, x'.table, x'.workspace, x'.files)) :
    Move x [x'.files] x'
  /-- A scan of some snapshot of some table loads an artifact. -/
  | load {x : Session} (batchSize : Nat) (a : ArtifactRef) (opened : List Path)
    (hopens : x.OpensIntact batchSize a) :
    Move x [] (x.withCache
      (Reading.load (Artifact.read x.files batchSize) ⟨x.workspace.cache, opened⟩ a).2.cache)

/-- What has happened since the cache was empty, with all trees of files that there were. -/
inductive Past : List Files → Session → Prop
  | start {x : Session} (hcache : x.workspace.cache.entries = []) : Past [x.files] x
  | move {trees new : List Files} {x x' : Session} (h : Past trees x) (hmove : Move x new x') :
    Past (new ++ trees) x'

/-- What has happened since a scan of a snapshot was started, with what is left of the scan and the rows that
it has handed out. Anything may happen between two of its steps. -/
inductive Scanning (s : Snapshot) (predicate : Predicate) (projection : Option (List Nat))
    (limit : Option Nat) : List Files → Session → Scan → List Row → Prop
  | start {trees : List Files} {x : Session} (h : Past trees x) :
    Scanning s predicate projection limit trees x (s.scan predicate projection limit) []
  | beside {trees new : List Files} {x x' : Session} {scan : Scan} {rows : List Row}
    (h : Scanning s predicate projection limit trees x scan rows) (hmove : Move x new x') :
    Scanning s predicate projection limit (new ++ trees) x' scan rows
  | step {trees : List Files} {x : Session} {scan rest : Scan} {rows : List Row} {batchSize : Nat}
    {opened : List Path} {step : Scan.Step} {r : Reading}
    (h : Scanning s predicate projection limit trees x scan rows)
    (hopens : scan.pending = [] → ∀ a ∈ scan.artifacts.head?, x.OpensIntact batchSize a.2)
    (hstep : scan.step (Artifact.read x.files batchSize) ⟨x.workspace.cache, opened⟩ = (step, r))
    (hrest : step.rest? = some rest) :
    Scanning s predicate projection limit trees (x.withCache r.cache) rest (rows ++ step.rows)

/-! ### The cache -/

/-- Whether all that is cached was read of artifacts that were as recorded. -/
structure Clean (trees : List Files) (x : Session) : Prop where
  here : x.files ∈ trees
  cache : x.workspace.cache.Holds (Cached trees)

/-- What an artifact reads as that is opened as recorded goes with its fingerprint. -/
theorem Clean.opens (h : Clean trees x) {batchSize : Nat} {a : ArtifactRef}
    (hopens : x.OpensIntact batchSize a) (hmiss : (x.workspace.cache.get a.fingerprint).1 = none)
    (c : Content) (hread : Artifact.read x.files batchSize a.path = .ok c) :
    Cached trees a.fingerprint c :=
  Workspace.cached_of_read h.here (hopens hmiss c hread) hread

/-- A pass brings nothing into the cache, also one that is called off. -/
theorem entries_refresh_subset {calledOff : Checkpoint → Bool} {outcome : Except Error Bool}
    (hrun : x.table.refresh x.workspace x.files calledOff = (outcome, x'.table, x'.workspace, x'.files)) :
    x'.workspace.cache.entries ⊆ x.workspace.cache.entries := by
  have hcandidate := LiveTable.entries_candidate_subset { x.table with stale := false } x.workspace x.files
    calledOff
  have hworkspace : x'.workspace = (x.table.refresh x.workspace x.files calledOff).2.2.1 := by rw [hrun]
  rw [hworkspace]
  unfold LiveTable.refresh LiveTable.beginPass LiveTable.finishPass
  dsimp only
  split
  · dsimp only
    rw [Workspace.cache_trySave]
    exact hcandidate
  · exact hcandidate

/-- Whatever happens keeps the cache sound. -/
theorem Clean.move (h : Clean trees x) (hmove : Move x new x') : Clean (new ++ trees) x' := by
  have hkept {x' : Session} (hcache : x'.workspace.cache.entries ⊆ x.workspace.cache.entries) :
      Clean (x'.files :: trees) x' :=
    ⟨.head _, fun e he => (h.cache e (hcache he)).mono (List.subset_cons_self _ _)⟩
  cases hmove with
  | work hcache => exact hkept hcache
  | refresh hrun => exact hkept (entries_refresh_subset hrun)
  | load batchSize a opened hopens =>
    refine ⟨h.here, ?_⟩
    cases hload : Reading.load (Artifact.read x.files batchSize) ⟨x.workspace.cache, opened⟩ a with
    | mk outcome after =>
      exact (Reading.of_load (Workspace.respects_cached trees) h.cache (h.opens hopens) hload).1

/-- The cache is sound after anything that has happened. -/
theorem clean_of_past (h : Past trees x) : Clean trees x := by
  induction h with
  | @start x hcache =>
    refine ⟨.head _, ?_⟩
    unfold BatchCache.Holds
    rw [hcache]
    exact nofun
  | move _ hmove ih => exact ih.move hmove

section

variable {predicate : Predicate} {projection : Option (List Nat)} {limit : Option Nat} {scan : Scan}
  {rows : List Row}

theorem clean_of_scanning (h : Scanning s predicate projection limit trees x scan rows) : Clean trees x := by
  induction h with
  | start h => exact clean_of_past h
  | beside _ hmove ih => exact ih.move hmove
  | step _ hopens hstep _ ih =>
    exact ⟨ih.here, Scan.holds_step (Workspace.respects_cached _) ih.cache
      (fun hpending a ha => ih.opens (hopens hpending a ha)) hstep⟩

/-! ### Captured snapshots -/

/-- What is loaded of an artifact comes to what reading it gave when the snapshot was published. -/
theorem Clean.rows_of_load (h : Clean trees x) (hsub : trees ⊆ all) (hfaithful : Faithful all)
    (hpublished : published ∈ all) (n : Nat) {batchSize : Nat} {opened : List Path} {r : Reading} {c : Content}
    {a : Partition × ArtifactRef} (hintact : isIntact published a.2 = true)
    (hopens : x.OpensIntact batchSize a.2)
    (hload : Reading.load (Artifact.read x.files batchSize) ⟨x.workspace.cache, opened⟩ a.2 = (.ok c, r)) :
    Scan.contentRows s projection a.1 c = Scan.artifactRows s projection (Artifact.read published n) a := by
  obtain ⟨-, hcached, -⟩ := Reading.of_load (Workspace.respects_cached trees) h.cache (h.opens hopens) hload
  obtain ⟨b, whole, m, hsame, hheld, rfl⟩ := hcached c rfl
  have hcontent := (hheld.mono hsub).content_of_same hfaithful hpublished hintact hsame
  rw [Scan.artifactRows, Artifact.read, hcontent]
  exact Scan.contentRows_kept s projection a.1 whole.1 m n whole.2

/-- A scan of a captured snapshot has left what it has not handed out of the rows that the artifacts held
when the snapshot was published. -/
theorem Scanning.left (h : Scanning s predicate projection limit trees x scan rows) (hsub : trees ⊆ all)
    (hfaithful : Faithful all) (hpublished : published ∈ all) (hintact : s.Intact published) (n : Nat) :
    scan.snapshot = s ∧ scan.projection = projection ∧ scan.artifacts ⊆ s.keptArtifacts predicate ∧
      s.rowsIn published predicate projection limit n
        = (rows ++ (scan.left (Scan.artifactRows s projection (Artifact.read published n))).1,
          (scan.left (Scan.artifactRows s projection (Artifact.read published n))).2) := by
  induction h with
  | start => exact ⟨rfl, rfl, List.Subset.refl _, rfl⟩
  | beside _ _ ih => exact ih (List.Subset.trans (List.subset_append_right _ _) hsub)
  | @step trees x scan rest rows batchSize opened step r h hopens hstep hrest ih =>
    obtain ⟨hsnapshot, hprojection, hartifacts, hrows⟩ := ih hsub
    obtain ⟨hsnapshot', hprojection', hartifacts', hleft⟩ := @Scan.left_step _ _ _
      (Scan.artifactRows s projection (Artifact.read published n)) _ _ _ hstep hrest
      fun hpending a ha c hload => by
        have hkept := hartifacts (List.mem_of_mem_head? ha)
        rw [hsnapshot, hprojection]
        exact (clean_of_scanning h).rows_of_load hsub hfaithful hpublished n
          (hintact a.2 (Snapshot.mem_artifacts_of_kept hkept)) (hopens hpending a ha) hload
    refine ⟨hsnapshot'.trans hsnapshot, hprojection'.trans hprojection,
      List.Subset.trans hartifacts' hartifacts, ?_⟩
    rw [hrows, hleft, List.append_assoc]

/-- A scan of a snapshot of columnar sources hands out the first of those rows that the sources held when the
snapshot was published, or fails, and all of them if it comes to its end. This is so whatever has happened
since, as long as every file that was opened was as recorded. What is cached for any artifact is then what the
artifact held whenever it was as recorded. -/
theorem rows_of_captured (hnative : x.Native) (hnamed : x.files.WellNamed) (hpass : x.refreshed = (.ok true, x'))
    (hscan : Scanning x'.table.current predicate projection limit trees y scan rows)
    (hpublished : x.files ∈ trees) (hfaithful : Faithful trees) (n : Nat) :
    (∀ entry ∈ x'.table.current.partitions,
      entry.artifacts.map (fun a => a.path.components) = entry.partition.files.map Path.components) ∧
    rows <+: (x'.table.current.rowsIn x.files predicate projection limit n).1 ∧
    (∀ (batchSize : Nat) (opened : List Path) (r : Reading),
      scan.step (Artifact.read y.files batchSize) ⟨y.workspace.cache, opened⟩ = (.done, r) →
        x'.table.current.rowsIn x.files predicate projection limit n = (rows, none)) ∧
    ∀ e ∈ y.workspace.cache.entries, ∀ tree ∈ trees, ∀ a : ArtifactRef,
      e.fingerprint.same a.fingerprint = true → isIntact tree a = true →
        ∃ whole batchSize, Artifact.content tree a.path = .ok whole ∧
          e.payload = whole.2.kept whole.1 batchSize := by
  obtain ⟨s, hbuilt, -, hswapped, hcurrent, -⟩ := of_refreshed hpass
  have hdiffers : x.table.current.sameContent s = false := by simpa using hswapped.symm
  rw [hdiffers] at hcurrent
  replace hcurrent : x'.table.current = s := hcurrent
  rw [hcurrent] at hscan ⊢
  obtain ⟨hintact, hsources⟩ := of_native_pass hnative hnamed hbuilt
  obtain ⟨-, -, -, hrows⟩ := hscan.left (List.Subset.refl _) hfaithful hpublished hintact n
  refine ⟨hsources, ?_, fun batchSize opened r hdone => ?_, fun e he tree htree a hsame hstands => ?_⟩
  · rw [hrows]
    exact List.prefix_append _ _
  · rw [Scan.left_done hdone, List.append_nil] at hrows
    exact hrows
  · obtain ⟨b, whole, m, hb, hheld, hpayload⟩ := (clean_of_scanning hscan).cache e he
    exact ⟨whole, m, hheld.content_of_same hfaithful htree hstands (Fingerprint.same_trans hb hsame), hpayload⟩

end

/-! ### A file that is written over -/

/-- A file `x.parquet` in `d` that holds a number and was written at that time. A directory stands where the
ledger file would. -/
def valueFiles (value : Nat) : Files where
  nodes := ⟨[(["d"], .directory), (["d", ".conversions.json"], .directory), (["d", "x.parquet"],
    .file (Content.encode .parquet ⟨[⟨"a", .int64, true⟩], [[[.int value]]]⟩) value)]⟩
  home := []
  clock := 5

/-- Whether all sources of a table are columnar files, looked up. -/
def native (x : Session) : Bool :=
  x.workspace.ledger.records.entries.isEmpty &&
    match x.table.origin.layout x.detection x.files with
    | .error _ => true
    | .ok layout => layout.files.all Format.native.accepts

theorem of_native (h : x.native = true) : x.Native := by
  rw [native, Bool.and_eq_true] at h
  obtain ⟨hledger, hsources⟩ := h
  refine ⟨fun layout hlayout file hfile => ?_, fun key e he => ?_⟩
  · rw [hlayout] at hsources
    exact List.all_eq_true.mp hsources file hfile
  · have hmem := Keyed.mem_of_get? he
    rw [List.isEmpty_iff.mp hledger] at hmem
    cases hmem

theorem past_of_refreshed {outcome : Except Error Bool} (hcache : x.workspace.cache.entries = [])
    (h : x.refreshed = (outcome, x')) : Past [x'.files, x.files] x' := by
  have hrun : x.table.refresh x.workspace x.files LiveTable.uninterrupted
      = (outcome, x'.table, x'.workspace, x'.files) := by
    unfold refreshed at h
    obtain ⟨houtcome, hsession⟩ := Prod.mk.inj h
    rw [← hsession]
    exact Prod.ext houtcome rfl
  exact (Past.start hcache).move (.refresh hrun)

/-- Whether a load finds an artifact as recorded if it opens one, looked up. -/
def opensIntact (x : Session) (batchSize : Nat) (a : ArtifactRef) : Bool :=
  (x.workspace.cache.get a.fingerprint).1.isSome ||
    !(Artifact.read x.files batchSize a.path).toBool || isIntact x.files a

theorem of_opensIntact {batchSize : Nat} {a : ArtifactRef} (h : x.opensIntact batchSize a = true) :
    x.OpensIntact batchSize a := by
  intro hmiss c hread
  rw [opensIntact, hmiss, hread] at h
  exact h

/-- A scan some steps later, with the session and the rows that it has handed out; none if it ends before, or
if an artifact is not as recorded where it is opened. -/
def stepped? (x : Session) (scan : Scan) (rows : List Row) : Nat → Option (Session × Scan × List Row)
  | 0 => some (x, scan, rows)
  | n + 1 =>
    let after := scan.step (Artifact.read x.files 8192) ⟨x.workspace.cache, []⟩
    if scan.pending.isEmpty && !scan.artifacts.head?.all (fun a => x.opensIntact 8192 a.2) then none
    else match after.1.rest? with
      | none => none
      | some rest => stepped? (x.withCache after.2.cache) rest (rows ++ after.1.rows) n

theorem of_stepped? {predicate : Predicate} {projection : Option (List Nat)} {limit : Option Nat}
    {scan scan' : Scan} {rows rows' : List Row} {n : Nat}
    (h : Scanning s predicate projection limit trees x scan rows)
    (hsteps : x.stepped? scan rows n = some (y, scan', rows')) :
    Scanning s predicate projection limit trees y scan' rows' := by
  induction n generalizing x scan rows with
  | zero =>
    cases hsteps
    exact h
  | succ n ih =>
    unfold stepped? at hsteps
    dsimp only at hsteps
    split at hsteps
    · cases hsteps
    · next hopens =>
      split at hsteps
      · cases hsteps
      · next rest hrest =>
        refine ih (h.step (fun hpending a ha => of_opensIntact ?_) rfl hrest) hsteps
        rw [Option.mem_def] at ha
        simpa [hpending, ha] using hopens

theorem files_of_stepped? {scan scan' : Scan} {rows rows' : List Row} {n : Nat}
    (h : x.stepped? scan rows n = some (y, scan', rows')) : y.files = x.files := by
  induction n generalizing x scan rows with
  | zero =>
    cases h
    rfl
  | succ n ih =>
    unfold stepped? at h
    dsimp only at h
    split at h
    · cases h
    · split at h
      · cases h
      · have hrest := ih h
        exact hrest

/-- Whether some rows are a number. -/
def isValue (value : Int) : List Row → Bool
  | [[.int v]] => v == value
  | _ => false

theorem of_isValue {value : Int} {rows : List Row} (h : isValue value rows = true) : rows = [[.int value]] := by
  unfold isValue at h
  split at h
  · rw [beq_iff_eq.mp h]
  · cases h

/-- Whether a scan is at its end. -/
def atEnd (y : Session) (scan : Scan) : Bool :=
  match (scan.step (Artifact.read y.files 8192) ⟨y.workspace.cache, []⟩).1 with
  | .done => true
  | _ => false

/-- A scan loads the artifact, the file is written over, and another scan comes to its end. -/
def rescanned? (x' : Session) : Option (Session × Scan × List Row) :=
  x'.table.current.artifacts.head?.bind fun a =>
    let load := Reading.load (Artifact.read x'.files 8192) ⟨x'.workspace.cache, []⟩ a
    if x'.opensIntact 8192 a then
      stepped? { x'.withCache load.2.cache with files := valueFiles 2 }
        (x'.table.current.scan .always none none) [] 2
    else none

theorem of_rescanned? {scan : Scan} {rows : List Row} (hpast : Past trees x')
    (h : x'.rescanned? = some (y, scan, rows)) :
    Scanning x'.table.current .always none none ([valueFiles 2] ++ ([] ++ trees)) y scan rows ∧
      y.files = valueFiles 2 := by
  obtain ⟨a, -, h⟩ := Option.bind_eq_some_iff.mp h
  dsimp only at h
  obtain ⟨hopens, h⟩ := Option.ite_none_right_eq_some.mp h
  have hloaded := hpast.move (.load 8192 a [] (of_opensIntact hopens))
  have hlater := hloaded.move (@Move.work _ { x'.withCache _ with files := valueFiles 2 } (List.Subset.refl _))
  exact ⟨of_stepped? (.start hlater) h, files_of_stepped? h⟩

/-- The rows that were read before the file was written over come from the cache. -/
theorem rows_of_captured_cached :
    ∃ (x x' y : Session) (trees : List Files) (scan : Scan), x.Native ∧ x.files.WellNamed ∧
      x.refreshed = (.ok true, x') ∧ Scanning x'.table.current .always none none trees y scan [[.int 1]] ∧
      x.files ∈ trees ∧ Faithful trees ∧ x.files = valueFiles 1 ∧ y.files = valueFiles 2 ∧
      x'.table.current.rowsIn x.files .always none none 8192 = ([[.int 1]], none) := by
  have hrun : (once? (valueFiles 1)).bind (fun (x, x') => x'.rescanned?.map fun (y, scan, rows) =>
      x.native && x.workspace.cache.entries.isEmpty && isValue 1 rows && y.atEnd scan
        && Fingerprint.timesTell [valueFiles 2, x'.files, x.files]) = some true := by decide +kernel
  obtain ⟨⟨x, x'⟩, honce, hrun⟩ := Option.bind_eq_some_iff.mp hrun
  obtain ⟨⟨y, scan, rows⟩, hrescanned, hfacts⟩ := Option.map_eq_some_iff.mp hrun
  simp only [Bool.and_eq_true] at hfacts
  obtain ⟨⟨⟨⟨hnative, hcache⟩, hvalue⟩, hend⟩, htimes⟩ := hfacts
  obtain rfl := of_isValue hvalue
  obtain ⟨-, hfiles, -, hpass, -⟩ := of_once? honce
  obtain ⟨hscan, hlater⟩ := of_rescanned? (past_of_refreshed (List.isEmpty_iff.mp hcache) hpass) hrescanned
  have hnamed : x.files.WellNamed := by
    rw [hfiles]
    decide +kernel
  have hfaithful := Fingerprint.faithful_of_timesTell htimes
  have hpublished : x.files ∈ [valueFiles 2, x'.files, x.files] := .tail _ (.tail _ (.head _))
  obtain ⟨-, -, hrows, -⟩ := rows_of_captured (of_native hnative) hnamed hpass hscan hpublished hfaithful 8192
  cases hstep : scan.step (Artifact.read y.files 8192) ⟨y.workspace.cache, []⟩ with | mk step r =>
  rw [atEnd, hstep] at hend
  cases step with
  | done =>
    exact ⟨x, x', y, _, scan, of_native hnative, hnamed, hpass, hscan, hpublished, hfaithful, hfiles, hlater,
      hrows 8192 [] r hstep⟩
  | batch | failed | loaded => cases hend

/-- A scan to its end within some steps, whatever it opens. -/
def drained? (read : Path → Except Error Content) : Nat → Scan → Reading → Option (Scan.Drained × Reading)
  | 0, _, _ => none
  | n + 1, scan, r => match scan.step read r with
    | (.done, r) => some (⟨[], none⟩, r)
    | (.failed e, r) => some (⟨[], some e⟩, r)
    | (.batch b rest, r) => (drained? read n rest r).map fun (drained, r) =>
      (⟨b :: drained.batches, drained.failure⟩, r)
    | (.loaded rest, r) => drained? read n rest r

theorem of_drained? {read : Path → Except Error Content} {n : Nat} {scan : Scan} {r : Reading}
    {result : Scan.Drained × Reading} (h : drained? read n scan r = some result) :
    scan.drain read r = result := by
  induction n generalizing scan r result with
  | zero => cases h
  | succ n ih =>
    unfold drained? at h
    rw [Scan.drain_eq]
    cases hstep : scan.step read r with | mk step later =>
    rw [hstep] at h
    cases step with
    | done | failed e =>
      cases h
      rfl
    | batch b rest =>
      obtain ⟨_, hrest, rfl⟩ := Option.map_eq_some_iff.mp h
      dsimp only
      rw [ih hrest]
    | loaded rest => exact ih h

/-- Whether a scan has handed out a number and has not failed. -/
def handsOut (value : Int) (d : Scan.Drained) : Bool := isValue value d.rows && d.failure.isNone

theorem of_handsOut {value : Int} {d : Scan.Drained} (h : handsOut value d = true) :
    d.rows = [[.int value]] ∧ d.failure = none := by
  rw [handsOut, Bool.and_eq_true] at h
  exact ⟨of_isValue h.1, Option.isNone_iff_eq_none.mp h.2⟩

/-- A scan of the captured snapshot that opens the file after it was written over hands out the later number,
and so does a scan after the file is as recorded again. -/
theorem not_rows_of_captured :
    ∃ x x' : Session, x.Native ∧ x.files = valueFiles 1 ∧ x.refreshed = (.ok true, x') ∧
      Past [x'.files, x.files] x' ∧ Faithful [valueFiles 2, x'.files, x.files] ∧
      x'.table.current.Intact x'.files ∧
      x'.table.current.rowsIn x.files .always none none 8192 = ([[.int 1]], none) ∧
      ∃ late r again r',
        (x'.table.current.scan .always none none).drain (Artifact.read (valueFiles 2) 8192)
          ⟨x'.workspace.cache, []⟩ = (late, r) ∧ late.rows = [[.int 2]] ∧ late.failure = none ∧
        (x'.table.current.scan .always none none).drain (Artifact.read x'.files 8192) r = (again, r') ∧
          again.rows = [[.int 2]] ∧ again.failure = none := by
  have hrun : (once? (valueFiles 1)).bind (fun (x, x') =>
      let scan := x'.table.current.scan .always none none
      (drained? (Artifact.read (valueFiles 2) 8192) 3 scan ⟨x'.workspace.cache, []⟩).bind fun (late, r) =>
        (drained? (Artifact.read x'.files 8192) 3 scan r).map fun (again, _) =>
          x.native && x.workspace.cache.entries.isEmpty && handsOut 2 late && handsOut 2 again
            && x'.table.current.artifacts.all (isIntact x'.files)
            && isValue 1 (x'.table.current.rowsIn x.files .always none none 8192).1
            && (x'.table.current.rowsIn x.files .always none none 8192).2.isNone
            && Fingerprint.timesTell [valueFiles 2, x'.files, x.files]) = some true := by decide +kernel
  obtain ⟨⟨x, x'⟩, honce, hrun⟩ := Option.bind_eq_some_iff.mp hrun
  obtain ⟨⟨late, r⟩, hlate, hrun⟩ := Option.bind_eq_some_iff.mp hrun
  obtain ⟨⟨again, r'⟩, hagain, hfacts⟩ := Option.map_eq_some_iff.mp hrun
  simp only [Bool.and_eq_true] at hfacts
  obtain ⟨⟨⟨⟨⟨⟨⟨hnative, hcache⟩, hfirst⟩, hsecond⟩, hintact⟩, hvalue⟩, hnone⟩, htimes⟩ := hfacts
  obtain ⟨-, hfiles, -, hpass, -⟩ := of_once? honce
  obtain ⟨hrows, hfailure⟩ := of_handsOut hfirst
  obtain ⟨hrows', hfailure'⟩ := of_handsOut hsecond
  exact ⟨x, x', of_native hnative, hfiles, hpass, past_of_refreshed (List.isEmpty_iff.mp hcache) hpass,
    Fingerprint.faithful_of_timesTell htimes, List.all_eq_true.mp hintact,
    Prod.ext (of_isValue hvalue) (Option.isNone_iff_eq_none.mp hnone), late, r, again, r',
    of_drained? hlate, hrows, hfailure, of_drained? hagain, hrows', hfailure'⟩

end Session

end SourceTables

import SourceTables.Proofs.Convert
import SourceTables.Proofs.Ledger.Document
import SourceTables.Proofs.Workspace.Ensure

/-!
# `SourceTables.Proofs.Workspace.History`: everything that is recorded was once made

A history is any sequence of edits of the files, changes of the settings, conversions, saves and openings
of the directory again. It begins with a ledger without records.

The invariant `Accounted` says that every record, in memory and in the ledger file, was made by a
converter at some time in the history: its fingerprints were taken then, its artifacts held what they
were to hold, and its parameters are those of the settings that applied.

The theorems:

* `Accounted.step`: whatever happens keeps everything accounted for.
* `accounted_of_history`: the invariant holds in every history.
-/

set_option autoImplicit false

namespace SourceTables

/-! ### Fingerprints that can be relied on -/

/-- Whether fingerprints tell different contents apart in some trees of files, and all files there have
a size of 64 bits. -/
structure Faithful (trees : List Files) : Prop where
  identifies : ∀ fs ∈ trees, ∀ fs' ∈ trees, ∀ (p q : Path) (withHash withHash' : Bool)
    (f f' : Fingerprint), Fingerprint.compute fs p withHash = .ok f →
    Fingerprint.compute fs' q withHash' = .ok f' → f.same f' = true → fs'.content q = fs.content p
  fits : ∀ fs ∈ trees, ∀ (p : Path) (bytes : Bytes), fs.content p = .ok bytes →
    bytes.length < UInt64.size

theorem Faithful.mono {trees trees' : List Files} (h : Faithful trees') (hsub : trees ⊆ trees') :
    Faithful trees where
  identifies fs hfs fs' hfs' := h.identifies fs (hsub hfs) fs' (hsub hfs')
  fits fs hfs := h.fits fs (hsub hfs)

namespace Fingerprint

/-- The fingerprint of a file of 64 bits fits. -/
theorem fits64_of_compute {trees : List Files} (h : Faithful trees) {fs : Files} (hfs : fs ∈ trees)
    {p : Path} {withHash : Bool} {f : Fingerprint} (hf : compute fs p withHash = .ok f) :
    f.Fits64 := by
  unfold compute at hf
  split at hf
  · cases hf
  · next location bytes modified hstat =>
    cases hf
    refine ⟨h.fits fs hfs p bytes ?_, ?_⟩
    · rw [Files.content, hstat]
    · exact clampTime_lt modified
  · split at hf
    · cases hf
    · cases hf
      exact ⟨show directorySize < UInt64.size by decide, show 0 < UInt64.size by decide⟩

/-- Whether files that were written at the same time hold the same, in some trees of files whose files
were all written later than 1970 and have a size of 64 bits. -/
def timesTell (trees : List Files) : Bool :=
  trees.all fun fs => trees.all fun fs' => fs.nodes.entries.all fun e => fs'.nodes.entries.all fun e' =>
    match e.2, e'.2 with
    | .file bytes modified, .file bytes' modified' =>
      clampTime modified != 0 && decide (bytes.length < UInt64.size) &&
        (clampTime modified != clampTime modified' || bytes == bytes')
    | _, _ => true

theorem of_timesTell {trees : List Files} (h : timesTell trees = true) {fs fs' : Files} (hfs : fs ∈ trees)
    (hfs' : fs' ∈ trees) {location location' : Location} {bytes bytes' : Bytes} {modified modified' : Int}
    (hnode : fs.node? location = some (.file bytes modified))
    (hnode' : fs'.node? location' = some (.file bytes' modified')) :
    clampTime modified ≠ 0 ∧ bytes.length < UInt64.size ∧
      (clampTime modified = clampTime modified' → bytes = bytes') := by
  have hentry {fs : Files} {location : Location} {node : Node} (hnode : fs.node? location = some node)
      (hfile : node ≠ .directory) : (location, node) ∈ fs.nodes.entries := by
    unfold Files.node? at hnode
    split at hnode
    · exact absurd (Option.some.inj hnode).symm hfile
    · exact Keyed.mem_of_get? hnode
  simp only [timesTell, List.all_eq_true] at h
  have hpair := h fs hfs fs' hfs' _ (hentry hnode (by simp)) _ (hentry hnode' (by simp))
  simp only [Bool.and_eq_true, Bool.or_eq_true, bne_iff_ne, decide_eq_true_eq, beq_iff_eq] at hpair
  exact ⟨hpair.1.1, hpair.1.2, fun htime => hpair.2.resolve_left (absurd htime)⟩

/-- Fingerprints can be relied on where times tell contents apart. -/
theorem faithful_of_timesTell {trees : List Files} (h : timesTell trees = true) : Faithful trees where
  identifies fs hfs fs' hfs' p q withHash withHash' f f' hf hf' hsame := by
    obtain ⟨-, -, hmodified, -⟩ := same_iff.mp hsame
    -- A file has the time at which it was written, and a directory has none.
    have kind {fs : Files} {p : Path} {withHash : Bool} {f : Fingerprint}
        (hf : compute fs p withHash = .ok f) :
        (∃ location bytes modified, fs.node? location = some (.file bytes modified) ∧
          fs.content p = .ok bytes ∧ f.modified = clampTime modified) ∨
        (fs.content p = .error .isDirectory ∧ f.modified = 0) := by
      unfold compute at hf
      unfold Files.content
      split at hf
      · cases hf
      · next location bytes modified hstat =>
        cases hf
        rw [hstat]
        exact .inl ⟨location, bytes, modified, Files.node?_of_stat hstat, rfl, rfl⟩
      · next found hother hstat =>
        obtain ⟨location, node⟩ := found
        split at hf
        · cases hf
        · cases hf
          rw [hstat]
          cases node with
          | file bytes modified => exact absurd rfl (hother location bytes modified)
          | directory | link => exact .inr ⟨rfl, rfl⟩
    obtain ⟨l, bytes, m, hnode, hcontent, htime⟩ | ⟨hcontent, htime⟩ := kind hf <;>
      obtain ⟨l', bytes', m', hnode', hcontent', htime'⟩ | ⟨hcontent', htime'⟩ := kind hf'
    · rw [hcontent, hcontent']
      rw [(of_timesTell h hfs hfs' hnode hnode').2.2 (by rw [← htime, ← htime', hmodified])]
    · exact absurd (by rw [← htime, hmodified, htime']) (of_timesTell h hfs hfs hnode hnode).1
    · exact absurd (by rw [← htime', ← hmodified, htime]) (of_timesTell h hfs' hfs' hnode' hnode').1
    · rw [hcontent, hcontent']
  fits fs hfs p bytes hcontent := by
    unfold Files.content at hcontent
    split at hcontent
    · next location bytes' modified hstat =>
      cases hcontent
      exact (of_timesTell h hfs hfs (Files.node?_of_stat hstat) (Files.node?_of_stat hstat)).2.1
    · cases hcontent
    · cases hcontent

@[simp] theorem compute_tick (fs : Files) (p : Path) (withHash : Bool) :
    compute fs.tick p withHash = compute fs p withHash := by
  rw [compute, Files.stat_tick, compute]

end Fingerprint

@[simp] theorem Artifact.content_tick (fs : Files) (p : Path) :
    Artifact.content fs.tick p = Artifact.content fs p := by
  unfold Artifact.content
  rw [Files.content_tick]

namespace Workspace

/-! ### Histories -/

/-- What can happen to a workspace and the files beside it. Edits of the files and conversions leave the
ledger file as it is, and a ledger file that was written is found. -/
inductive Step (dir : Path) : Workspace → Files → Workspace → Files → Prop
  | edit {w : Workspace} {fs : Files} (fs' : Files)
    (hfile : fs'.content (Ledger.initial dir).file = fs.content (Ledger.initial dir).file) :
    Step dir w fs w fs'
  | configure {w : Workspace} {fs : Files} (w' : Workspace) (hledger : w'.ledger = w.ledger) :
    Step dir w fs w' fs
  | ensure {w w' : Workspace} {fs fs' : Files} {result : Except Error Record} (p : Path)
    (hrun : w.ensure fs p = (result, w', fs'))
    (hfile : fs'.content (Ledger.initial dir).file = fs.content (Ledger.initial dir).file) :
    Step dir w fs w' fs'
  | save {w w' : Workspace} {fs fs' : Files} (hsave : w.save fs = .ok (w', fs'))
    (hfound : w.ledger.isDirty = true → fs'.exists? (Ledger.initial dir).file = true) :
    Step dir w fs w' fs'
  | reopen {w w' : Workspace} {fs : Files} (c : Config) (hopen : ofDirectory fs dir c = .ok w') :
    Step dir w fs w' fs

/-- What has happened since a ledger without records, with all trees of files that there were. -/
inductive History (dir : Path) : List Files → Workspace → Files → Prop
  | start {fs : Files} {w : Workspace} (c : Config) (hopen : ofDirectory fs dir c = .ok w)
    (hempty : w.ledger.records = Keyed.empty) : History dir [fs] w fs
  | step {trees : List Files} {w w' : Workspace} {fs fs' : Files} (h : History dir trees w fs)
    (hstep : Step dir w fs w' fs') : History dir (fs' :: trees) w' fs'

/-! ### Records that were made -/

/-- Whether a record was made at some time: between two trees, by a converter under some settings. -/
def Justified (trees : List Files) (r : Record) : Prop :=
  ∃ before ∈ trees, ∃ after ∈ trees, ∃ (f : Format) (options : ConvertOptions) (withHash : Bool)
    (contents : List (Engine × Artifact.Content)),
    Fingerprint.compute before r.source.path withHash = .ok r.source ∧
    r.converter = f.id ∧ r.params = f.params r.source.path options ∧
    f.contents before r.source.path options = .ok contents ∧
    List.Forall₂ (fun a c => Fingerprint.compute after a.path false = .ok a.fingerprint ∧
      Artifact.content after a.path = .ok c) r.artifacts contents

theorem Justified.mono {trees trees' : List Files} {r : Record} (h : Justified trees r)
    (hsub : trees ⊆ trees') : Justified trees' r := by
  obtain ⟨before, hbefore, after, hafter, h⟩ := h
  exact ⟨before, hsub hbefore, after, hsub hafter, h⟩

/-- Whether all records of a map were made, and can be written. -/
structure Sound (trees : List Files) (m : LedgerMap) : Prop where
  writable : m.Writable
  justified : ∀ e ∈ m.entries, Justified trees e.2.record

theorem Sound.mono {trees trees' : List Files} {m : LedgerMap} (h : Sound trees m)
    (hsub : trees ⊆ trees') : Sound trees' m :=
  ⟨h.writable, fun e he => (h.justified e he).mono hsub⟩

theorem sound_empty (trees : List Files) : Sound trees Keyed.empty :=
  ⟨LedgerMap.writable_empty, nofun⟩

theorem Sound.insertAt {trees : List Files} {m : LedgerMap} (h : Sound trees m) {r : Record}
    (hwritable : r.Writable) (hjustified : Justified trees r) : Sound trees (m.insertAt r.path r) := by
  refine ⟨h.writable.insertAt r.path hwritable, fun e he => ?_⟩
  obtain rfl | he := Keyed.mem_insert he
  · exact hjustified
  · exact h.justified e he

/-! ### New records -/

theorem compute_of_version {w : Workspace} {fs : Files} {p : Path} {source : Fingerprint}
    (h : w.version fs p = .ok source) : Fingerprint.compute fs p w.hashContents = .ok source := by
  unfold version at h
  cases hcompute : Fingerprint.compute fs p w.hashContents with
  | error e =>
    rw [hcompute] at h
    cases h
  | ok f =>
    rw [hcompute] at h
    cases h
    rfl

/-- A path with a fingerprint leads to something. -/
theorem exists_of_compute {fs : Files} {p : Path} {withHash : Bool} {f : Fingerprint}
    (h : Fingerprint.compute fs p withHash = .ok f) : fs.exists? p = true := by
  unfold Fingerprint.compute at h
  unfold Files.exists?
  cases hstat : fs.stat p with
  | error e =>
    rw [hstat] at h
    cases h
  | ok _ => rfl

/-- The reference to an artifact tells what was found at its path. -/
theorem of_reference {fs : Files} {p : Produced} {a : ArtifactRef} (h : reference fs p = .ok a) :
    a.path = p.artifact ∧ Fingerprint.compute fs a.path false = .ok a.fingerprint := by
  unfold reference at h
  split at h
  · next f hf =>
    cases h
    exact ⟨rfl, hf⟩
  · cases h

section

variable {w : Workspace} {fs fs' : Files} {p : Path} {source : Fingerprint} {f : Format}
  {produced : List Produced} {r : Record}

/-- The artifacts of a new record hold what they are to hold. -/
theorem contents_of_converted
    (hconvert : f.convert fs p
      (.ofSource w.artifactDir source (f.params p w.options) w.options.engine) w.options
      = (.ok produced, fs'))
    (hrecord : recordOf fs' source f (f.params p w.options) produced = .ok r) :
    ∃ contents, f.contents fs p w.options = .ok contents ∧
      List.Forall₂ (fun a c => Fingerprint.compute fs' a.path false = .ok a.fingerprint ∧
        Artifact.content fs' a.path = .ok c) r.artifacts contents := by
  obtain ⟨contents, hcontents, hreads⟩ := Format.of_convert hconvert
  obtain ⟨-, -, -, -, hrefs⟩ := of_recordOf hrecord
  refine ⟨contents, hcontents, ?_⟩
  -- Each reference goes with an artifact that was produced, and this one with what it is to hold.
  generalize r.artifacts = artifacts at hrefs
  clear hconvert hrecord hcontents
  induction hreads generalizing artifacts with
  | nil =>
    cases hrefs
    exact .nil
  | cons hread _ ih =>
    cases hrefs with
    | cons href hrest =>
      obtain ⟨hpath, hcompute⟩ := of_reference href
      refine .cons ⟨hcompute, ?_⟩ (ih _ hrest)
      rw [hpath]
      exact hread (hpath ▸ exists_of_compute hcompute)

/-- A new record was made, and can be written. -/
theorem justified_of_converted {trees : List Files} (hfaithful : Faithful trees) (hfs : fs ∈ trees)
    (hfs' : fs'.tick ∈ trees) (hsource : w.version fs p = .ok source)
    (hconvert : f.convert fs source.path
      (.ofSource w.artifactDir source (f.params p w.options) w.options.engine) w.options
      = (.ok produced, fs'))
    (hrecord : recordOf fs' source f (f.params p w.options) produced = .ok r) :
    Justified trees r ∧ r.Writable := by
  have hcompute := compute_of_version hsource
  have hpath := Fingerprint.path_of_compute hcompute
  rw [hpath] at hconvert
  obtain ⟨contents, hcontents, hartifacts⟩ := contents_of_converted hconvert hrecord
  obtain ⟨hrsource, hrid, hrparams, hrtime, -⟩ := of_recordOf hrecord
  constructor
  · refine ⟨fs, hfs, fs'.tick, hfs', f, w.options, w.hashContents, contents, ?_, hrid, ?_, ?_, ?_⟩
    · rw [hrsource, hpath, hcompute]
    · rw [hrparams, hrsource, hpath]
    · rw [hrsource, hpath, hcontents]
    · simpa only [Fingerprint.compute_tick, Artifact.content_tick] using hartifacts
  · refine ⟨?_, fun a ha => ?_, ?_, ?_⟩
    · rw [hrsource]
      exact Fingerprint.fits64_of_compute hfaithful hfs hcompute
    · obtain ⟨_, -, hfound, -⟩ := Outcome.exists_of_forall₂ hartifacts ha
      exact Fingerprint.fits64_of_compute hfaithful hfs' ((Fingerprint.compute_tick ..).trans hfound)
    · rw [hrtime]
      exact Fingerprint.clampTime_lt _
    · rw [hrparams]
      exact f.sorted_params p w.options

end

/-! ### What a workspace knows of its past -/

/-- Whether all that is recorded was made, in memory and in the ledger file, which shows what is in
memory when there are no changes. -/
structure Accounted (dir : Path) (trees : List Files) (w : Workspace) (fs : Files) : Prop where
  place : w.ledger.dir = dir
  here : fs ∈ trees
  counts : w.ledger.saved ≤ w.ledger.generation
  memory : Sound trees w.ledger.records
  file : Sound trees (Ledger.onFile dir fs)
  shown : w.ledger.isDirty = false → Ledger.onFile dir fs = w.ledger.records

/-- A workspace that was opened holds what the ledger file shows. -/
theorem ledger_ofDirectory {fs : Files} {dir : Path} {c : Config} {w : Workspace}
    (h : ofDirectory fs dir c = .ok w) :
    w.ledger.dir = dir ∧ w.ledger.saved = w.ledger.generation ∧
      w.ledger.records = Ledger.onFile dir fs := by
  unfold ofDirectory at h
  obtain ⟨registry, -, h⟩ := Outcome.bind_eq_ok.mp h
  cases h
  refine ⟨?_, ?_, rfl⟩
  · show ((Ledger.initial dir).load fs).2.dir = dir
    unfold Ledger.load
    split <;> rfl
  · show ((Ledger.initial dir).load fs).2.saved = ((Ledger.initial dir).load fs).2.generation
    unfold Ledger.load
    split <;> rfl

/-- Artifacts are put where the settings say. -/
theorem artifactDir_of_ofDirectory {fs : Files} {dir : Path} {c : Config} {w : Workspace}
    (h : ofDirectory fs dir c = .ok w) : w.artifactDir = c.artifactDirFor dir := by
  unfold ofDirectory at h
  obtain ⟨registry, -, h⟩ := Outcome.bind_eq_ok.mp h
  cases h
  rfl

@[simp] theorem ledger_enter (w : Workspace) (r : Record) :
    (w.enter r).ledger = (w.ledger.record r).2 := by
  unfold enter
  split
  next previous ledger hrecord =>
    rw [hrecord]
    cases previous <;> rfl

section

variable {dir : Path} {trees : List Files} {w w' : Workspace} {fs fs' : Files}

theorem Accounted.mono {trees' : List Files} (h : Accounted dir trees w fs) (hsub : trees ⊆ trees') :
    Accounted dir trees' w fs :=
  ⟨h.place, hsub h.here, h.counts, h.memory.mono hsub, h.file.mono hsub, h.shown⟩

/-- What was accounted for stays so when the files change beside the ledger file. -/
theorem Accounted.edit (h : Accounted dir trees w fs)
    (hfile : fs'.content (Ledger.initial dir).file = fs.content (Ledger.initial dir).file) :
    Accounted dir (fs' :: trees) w fs' where
  place := h.place
  here := .head _
  counts := h.counts
  memory := h.memory.mono (List.subset_cons_self _ _)
  file := by
    rw [Ledger.onFile_congr hfile]
    exact h.file.mono (List.subset_cons_self _ _)
  shown := by
    rw [Ledger.onFile_congr hfile]
    exact h.shown

/-- The ledger alone is accounted for. -/
theorem Accounted.of_ledger (h : Accounted dir trees w fs) (hledger : w'.ledger = w.ledger) :
    Accounted dir trees w' fs := by
  obtain ⟨hplace, here, hcounts, hmemory, hfile, hshown⟩ := h
  rw [← hledger] at hplace hcounts hmemory hshown
  exact ⟨hplace, here, hcounts, hmemory, hfile, hshown⟩

/-- A conversion records nothing, or what was made. -/
theorem Sound.ledger_ensure {p : Path} {result : Except Error Record}
    (hfaithful : Faithful (fs' :: trees)) (hfs : fs ∈ trees) (h : Sound trees w.ledger.records)
    (hrun : w.ensure fs p = (result, w', fs')) :
    w'.ledger = w.ledger ∨
      (w'.ledger.dir = w.ledger.dir ∧ w'.ledger.saved = w.ledger.saved ∧
        w'.ledger.generation = w.ledger.generation + 1 ∧ Sound (fs' :: trees) w'.ledger.records) := by
  unfold Workspace.ensure at hrun
  split at hrun
  · cases hrun
    exact .inl rfl
  · next source hsource =>
    cases ensureVersion_cases hrun with
    | unsupported | current | failed | unrecorded => exact .inl rfl
    | converted f produced r fs₁ hf hr hconvert hrecord =>
      obtain ⟨hjustified, hwritable⟩ := justified_of_converted hfaithful (.tail _ hfs) (.head _)
        hsource hconvert hrecord
      rw [ledger_enter]
      refine .inr ⟨rfl, rfl, rfl, ?_⟩
      exact (h.mono (List.subset_cons_self _ _)).insertAt hwritable hjustified

/-- A conversion keeps records made. -/
theorem Sound.ensure {p : Path} {result : Except Error Record} (hfaithful : Faithful (fs' :: trees))
    (hfs : fs ∈ trees) (h : Sound trees w.ledger.records) (hrun : w.ensure fs p = (result, w', fs')) :
    Sound (fs' :: trees) w'.ledger.records := by
  obtain hledger | ⟨-, -, -, hsound⟩ := h.ledger_ensure hfaithful hfs hrun
  · rw [hledger]
    exact h.mono (List.subset_cons_self _ _)
  · exact hsound

/-- A conversion records nothing, or what was made, and then there is a change that no save has seen. -/
theorem Accounted.ledger_ensure {p : Path} {result : Except Error Record}
    (hfaithful : Faithful (fs' :: trees)) (h : Accounted dir trees w fs)
    (hrun : w.ensure fs p = (result, w', fs')) :
    w'.ledger = w.ledger ∨
      (w'.ledger.dir = dir ∧ w'.ledger.saved < w'.ledger.generation ∧
        Sound (fs' :: trees) w'.ledger.records) := by
  refine (h.memory.ledger_ensure hfaithful h.here hrun).imp_right ?_
  rintro ⟨hplace, hsaved, hgeneration, hsound⟩
  refine ⟨hplace.trans h.place, ?_, hsound⟩
  rw [hsaved, hgeneration]
  exact Nat.lt_succ_of_le h.counts

/-- A conversion keeps everything accounted for. -/
theorem Accounted.ensure {p : Path} {result : Except Error Record}
    (hfaithful : Faithful (fs' :: trees)) (h : Accounted dir trees w fs)
    (hrun : w.ensure fs p = (result, w', fs'))
    (hfile : fs'.content (Ledger.initial dir).file = fs.content (Ledger.initial dir).file) :
    Accounted dir (fs' :: trees) w' fs' := by
  have hedit := h.edit hfile
  obtain hledger | ⟨hplace, hcounts, hmemory⟩ := h.ledger_ensure hfaithful hrun
  · exact hedit.of_ledger hledger
  -- A new record makes the counts differ, so that nothing has to be shown of the ledger file.
  · refine ⟨hplace, .head _, Nat.le_of_lt hcounts, hmemory, hedit.file, fun hclean => ?_⟩
    simp only [Ledger.isDirty, bne_eq_false_iff_eq] at hclean
    omega

/-- A save does nothing when there are no changes, and else writes the records and notes the count. -/
theorem save_cases (h : w.save fs = .ok (w', fs')) :
    (w.ledger.isDirty = false ∧ w' = w ∧ fs' = fs) ∨
      (w.ledger.isDirty = true ∧ w.ledger.writeRecords fs w.ledger.records = .ok fs' ∧
        w' = { w with ledger := { w.ledger with saved := w.ledger.generation } }) := by
  unfold Workspace.save at h
  split at h
  · next hdirty =>
    unfold Ledger.save at h
    dsimp only at h
    split at h
    · next fs₁ hwrite =>
      cases h
      exact .inr ⟨hdirty, hwrite, rfl⟩
    · cases h
  · next hclean =>
    cases h
    exact .inl ⟨Bool.of_not_eq_true hclean, rfl, rfl⟩

/-- After a save the ledger file shows what is in memory. -/
theorem onFile_of_save (hsave : w.save fs = .ok (w', fs')) (hplace : w.ledger.dir = dir)
    (hwritable : w.ledger.records.Writable)
    (hshown : w.ledger.isDirty = false → Ledger.onFile dir fs = w.ledger.records)
    (hfound : w.ledger.isDirty = true → fs'.exists? (Ledger.initial dir).file = true) :
    Ledger.onFile dir fs' = w.ledger.records := by
  obtain ⟨hclean, rfl, rfl⟩ | ⟨hdirty, hwrite, rfl⟩ := save_cases hsave
  · exact hshown hclean
  · have hfile : w.ledger.file = (Ledger.initial dir).file := by
      unfold Ledger.file
      rw [hplace]
      rfl
    have hcontent := Ledger.content_of_writeRecords hwrite (hfile ▸ hfound hdirty)
    rw [hfile] at hcontent
    exact Ledger.onFile_of_content hwritable hcontent

/-- A save keeps everything accounted for. -/
theorem Accounted.save (h : Accounted dir trees w fs) (hsave : w.save fs = .ok (w', fs'))
    (hfound : w.ledger.isDirty = true → fs'.exists? (Ledger.initial dir).file = true) :
    Accounted dir (fs' :: trees) w' fs' := by
  have hshown := onFile_of_save hsave h.place h.memory.writable h.shown hfound
  have hsound := h.memory.mono (List.subset_cons_self fs' trees)
  have hfile : Sound (fs' :: trees) (Ledger.onFile dir fs') := hshown ▸ hsound
  obtain ⟨-, rfl, rfl⟩ | ⟨-, -, rfl⟩ := save_cases hsave
  · exact ⟨h.place, .head _, h.counts, hsound, hfile, h.shown⟩
  · exact ⟨h.place, .head _, Nat.le_refl _, hsound, hfile, fun _ => hshown⟩

/-- What the ledger file shows is accounted for when the directory is opened again. -/
theorem Accounted.reopen {c : Config} (h : Accounted dir trees w fs)
    (hopen : ofDirectory fs dir c = .ok w') : Accounted dir trees w' fs := by
  obtain ⟨hplace, hsaved, hrecords⟩ := ledger_ofDirectory hopen
  refine ⟨hplace, h.here, Nat.le_of_eq hsaved, ?_, h.file, fun _ => hrecords.symm⟩
  rw [hrecords]
  exact h.file

/-- Whatever happens keeps everything accounted for. -/
theorem Accounted.step (hfaithful : Faithful (fs' :: trees)) (h : Accounted dir trees w fs)
    (hstep : Step dir w fs w' fs') : Accounted dir (fs' :: trees) w' fs' := by
  cases hstep with
  | edit _ hfile => exact h.edit hfile
  | configure _ hledger => exact (h.of_ledger hledger).mono (List.subset_cons_self _ _)
  | ensure p hrun hfile => exact h.ensure hfaithful hrun hfile
  | save hsave hfound => exact h.save hsave hfound
  | reopen c hopen => exact (h.reopen hopen).mono (List.subset_cons_self _ _)

/-- In every history all that is recorded was made. -/
theorem accounted_of_history (h : History dir trees w fs) (hfaithful : Faithful trees) :
    Accounted dir trees w fs := by
  induction h with
  | start c hopen hempty =>
    obtain ⟨hplace, hsaved, hrecords⟩ := ledger_ofDirectory hopen
    refine ⟨hplace, .head _, Nat.le_of_eq hsaved, ?_, ?_, fun _ => hrecords.symm⟩
    · rw [hempty]
      exact sound_empty _
    · rw [← hrecords, hempty]
      exact sound_empty _
  | step _ hstep ih => exact (ih (hfaithful.mono (List.subset_cons_self _ _))).step hfaithful hstep

end

end Workspace

end SourceTables

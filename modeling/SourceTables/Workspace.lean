import SourceTables.BatchCache
import SourceTables.Convert
import SourceTables.Ledger.Store

/-!
# `SourceTables.Workspace`: sources kept converted

A workspace holds the ledger of a directory and everything that conversions depend on. Artifacts come
into being only by `ensure`: a source is converted when the ledger knows no conversion of exactly this
version of it, when the converter or its parameters have changed, or when an artifact is no longer
what was recorded. Otherwise the recorded conversion stands and no converter runs.

Main statements: `ensure_of_current?` (a current record is returned and nothing changes) and
`length_ensureAll` (every path gets an answer).
-/

set_option autoImplicit false

namespace SourceTables

/-- The ledger of a directory with all that conversions depend on. -/
structure Workspace where
  ledger : Ledger
  cache : BatchCache Artifact.Content
  registry : Registry
  options : ConvertOptions
  /-- Whether fingerprints of sources hold a digest of the content. -/
  hashContents : Bool
  artifactDir : Path
  /-- How many conversions run at the same time. -/
  parallelism : Nat
  /-- How often a converter was run. -/
  performed : Nat
deriving Inhabited

namespace Workspace

/-- The workspace of a directory. A ledger file that cannot be read counts as an empty ledger. -/
def ofDirectory (fs : Files) (dir : Path) (c : Config) : Except Error Workspace := do
  let registry ← Registry.ofConfig c
  return {
    ledger := ((Ledger.initial dir).load fs).2
    cache := { maxBytes := c.cacheMaxBytes }
    registry
    options := c.options
    hashContents := c.hashContents
    artifactDir := c.artifactDirFor dir
    parallelism := max c.parallelism 1
    performed := 0 }

/-- Whether an artifact is what was recorded. -/
def isIntact (fs : Files) (a : ArtifactRef) : Bool :=
  match Fingerprint.probe fs a.path false with
  | .ok (some f) => f.same a.fingerprint
  | _ => false

/-- The recorded conversion of a source, if it still stands for this version of the source, this
converter and these parameters. -/
def current? (w : Workspace) (fs : Files) (source : Fingerprint) (f : Format) (params : Params) :
    Option Record :=
  (w.ledger.lookup? source).filter fun r =>
    r.converter == f.id && r.params == params && r.artifacts.all (isIntact fs)

/-- The reference to an artifact as it is now. -/
def reference (fs : Files) (p : Produced) : Except Error ArtifactRef :=
  match Fingerprint.compute fs p.artifact false with
  | .ok f => .ok ⟨p.table, p.artifact, f⟩
  | .error e => .error (.file e)

/-- The record of a conversion that was just made. -/
def recordOf (fs : Files) (source : Fingerprint) (f : Format) (params : Params)
    (produced : List Produced) : Except Error Record := do
  -- The artifacts are looked at after they were written: their times are those that count.
  match ← produced.mapM (reference fs) with
  | [] => .error (.conversion source.path f.id "no tables produced")
  | primary :: additional =>
    return {
      source, converter := f.id, primary, convertedAt := Fingerprint.clampTime fs.clock, params
      additional }

/-- Forgets what was read of a record's artifacts. -/
def invalidate (w : Workspace) (r : Record) : Workspace :=
  { w with cache := r.artifacts.foldl (fun c a => (c.invalidate a.fingerprint).2) w.cache }

/-- Records a conversion. What was read of the artifacts that it replaces is forgotten. -/
def enter (w : Workspace) (r : Record) : Workspace :=
  let (previous, ledger) := w.ledger.record r
  let w := { w with ledger }
  match previous with
  | some previous => w.invalidate previous
  | none => w

/-- Runs the converter on a source and records the conversion. -/
def perform (w : Workspace) (fs : Files) (source : Fingerprint) (f : Format) (params : Params) :
    Except Error Record × Workspace × Files :=
  let destination := Destination.ofSource w.artifactDir source params w.options.engine
  let w := { w with performed := w.performed + 1 }
  match f.convert fs source.path destination w.options with
  | (.error e, fs) => (.error e, w, fs)
  | (.ok produced, fs) => match recordOf fs source f params produced with
    | .error e => (.error e, w, fs)
    | .ok r => (.ok r, w.enter r, fs.tick)

/-- The version that a source has now. -/
def version (w : Workspace) (fs : Files) (p : Path) : Except Error Fingerprint :=
  (Fingerprint.compute fs p w.hashContents).mapError .file

/-- The conversion of a version of a source: the recorded one where it still stands, else a new
one. -/
def ensureVersion (w : Workspace) (fs : Files) (p : Path) (source : Fingerprint) :
    Except Error Record × Workspace × Files :=
  match w.registry.find? p with
  | none => (.error (.unsupportedFormat p), w, fs)
  | some f =>
    let params := f.params p w.options
    match w.current? fs source f params with
    | some r => (.ok r, w, fs)
    | none => w.perform fs source f params

/-- The conversion of a source as it is now. -/
def ensure (w : Workspace) (fs : Files) (p : Path) : Except Error Record × Workspace × Files :=
  match w.version fs p with
  | .error e => (.error e, w, fs)
  | .ok source => w.ensureVersion fs p source

/-- A current record is returned, and nothing changes. -/
theorem ensure_of_current? (w : Workspace) (fs : Files) (p : Path) (source : Fingerprint)
    (f : Format) (r : Record) (hs : w.version fs p = .ok source) (hf : w.registry.find? p = some f)
    (hr : w.current? fs source f (f.params p w.options) = some r) :
    w.ensure fs p = (.ok r, w, fs) := by
  simp [ensure, ensureVersion, hs, hf, hr]

/-! ### Several sources at the same time -/

/-- A run that callers may share: where it was started, its source and its outcome. -/
structure SharedRun where
  position : Nat
  path : Path
  outcome : Except Error Record

/-- The run of a source that is still going on when the caller at a position asks for it: as many
callers as the workspace allows wait at the same time. -/
def shared? (w : Workspace) (runs : List SharedRun) (position : Nat) (p : Path) :
    Option SharedRun :=
  runs.find? fun run => run.path.same p && position < run.position + w.parallelism

/-- The conversions of sources from a position on, given the runs that were started before. -/
def ensureFrom (w : Workspace) (fs : Files) (runs : List SharedRun) (position : Nat) :
    List Path → List (Path × Except Error Record) × Workspace × Files
  | [] => ([], w, fs)
  | p :: rest =>
    match w.shared? runs position p with
    | some run =>
      -- The run has its outcome already; whoever joins it gets that.
      let (results, w, fs) := ensureFrom w fs runs (position + 1) rest
      ((p, run.outcome) :: results, w, fs)
    | none =>
      let (outcome, w, fs) := w.ensure fs p
      let (results, w, fs) := ensureFrom w fs (⟨position, p, outcome⟩ :: runs) (position + 1) rest
      ((p, outcome) :: results, w, fs)

/-- The conversions of sources, in the order asked for. The failure of one does not touch the
others, and callers that wait for the same source share one run. -/
def ensureAll (w : Workspace) (fs : Files) (ps : List Path) :
    List (Path × Except Error Record) × Workspace × Files :=
  w.ensureFrom fs [] 0 ps

/-- The answers stand in the order of the paths. -/
theorem map_fst_ensureFrom (w : Workspace) (fs : Files) (runs : List SharedRun) (position : Nat)
    (ps : List Path) : (w.ensureFrom fs runs position ps).1.map Prod.fst = ps := by
  induction ps generalizing w fs runs position with
  | nil => rfl
  | cons p rest ih =>
    unfold ensureFrom
    split <;> simp [ih]

/-- Every path gets an answer. -/
theorem length_ensureAll (w : Workspace) (fs : Files) (ps : List Path) :
    (w.ensureAll fs ps).1.length = ps.length := by
  have := congrArg List.length (map_fst_ensureFrom w fs [] 0 ps)
  simpa [ensureAll] using this

/-! ### The ledger file -/

/-- Saves the ledger if there are changes. -/
def save (w : Workspace) (fs : Files) : Except Error (Workspace × Files) :=
  if w.ledger.isDirty then (w.ledger.save fs).map fun (ledger, fs) => ({ w with ledger }, fs)
  else .ok (w, fs)

/-- Saves the ledger if there are changes and it can be saved. -/
def trySave (w : Workspace) (fs : Files) : Workspace × Files :=
  (w.save fs).toOption.getD (w, fs)

/-- Forgets sources that are gone, with their artifacts, and saves the ledger. -/
def prune (w : Workspace) (fs : Files) : Except Error (List Record) × Workspace × Files :=
  let (removed, ledger, fs) := w.ledger.pruneMissing fs w.artifactDir
  -- What was read of removed artifacts must not be found again.
  let w := removed.foldl invalidate { w with ledger }
  match w.save fs with
  | .ok (w, fs) => (.ok removed, w, fs)
  | .error e => (.error e, w, fs)

end Workspace

end SourceTables

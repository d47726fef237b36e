import SourceTables.Origin
import SourceTables.Scan

/-!
# `SourceTables.LiveTable`: tables that follow their sources

A live table has one current snapshot. A refresh pass detects the layout, converts whatever has
changed, and builds a candidate; the candidate becomes current unless it shows the same as the current
snapshot. A pass that fails or is called off leaves the snapshot alone.

The flag that asks for a refresh is cleared when a pass begins, so that a signal which arrives during
the pass survives it. A failure sets the flag, and a pass that was called off restores it.

A pass is made of `beginPass`, `candidate` and `finishPass`, so that passes can be reasoned about beside
other calls.

Main statements: `endPass_of_error` (a pass without a candidate changes neither the snapshot nor the
time of the last refresh) and `needsRefresh_of_stale`.
-/

set_option autoImplicit false

namespace SourceTables

/-- A table that follows its sources. -/
structure LiveTable where
  name : String
  origin : Origin
  /-- How many levels of directories may carry keys. -/
  maxDepth : Nat
  /-- After how many seconds the table is stale. -/
  interval : Option Nat
  current : Snapshot := .empty
  /-- Whether a refresh was asked for. -/
  stale : Bool := true
  /-- The end of the last pass that succeeded, in nanoseconds since 1970-01-01. -/
  refreshedAt : Option Nat := none
  /-- The failure of a refresh that nobody waited for. -/
  deferred : Option Error := none
  /-- How many passes have ended. -/
  passes : Nat := 0
deriving Inhabited

/-- The points of a pass at which it can be called off. -/
inductive Checkpoint where
  /-- The layout is known. -/
  | detected
  /-- The conversions are done. -/
  | converted
  /-- The artifacts are selected. -/
  | selected
  /-- The candidate is built. -/
  | built
deriving DecidableEq

namespace LiveTable

/-- A table that was not built yet. -/
def ofOrigin (name : String) (origin : Origin) (c : Config) : LiveTable :=
  { name, origin, maxDepth := c.partitionMaxDepth, interval := c.refreshInterval }

/-- Nanoseconds in a second. -/
def second : Nat := 1000000000

/-- Whether a refresh is due: it was asked for, there was none, or the last one is too long ago. -/
def needsRefresh (t : LiveTable) (now : Nat) : Bool :=
  t.stale || match t.refreshedAt, t.interval with
    | none, _ => true
    | some before, some seconds => before + seconds * second ≤ now
    | some _, none => false

/-- A table that was asked to refresh is due. -/
theorem needsRefresh_of_stale (t : LiveTable) (now : Nat) (h : t.stale = true) :
    t.needsRefresh now = true := by
  simp [needsRefresh, h]

/-- Asks for a refresh before the next scan. -/
def markStale (t : LiveTable) : LiveTable := { t with stale := true }

/-! ### The candidate of a pass -/

/-- The records so far with one more result. -/
def addResult (m : LedgerMap) (result : Path × Except Error Record) : LedgerMap :=
  match result.2 with
  | .ok r => m.insertAt result.1 r
  | .error _ => m

/-- The conversions that succeeded, by source. -/
def conversions (results : List (Path × Except Error Record)) : LedgerMap :=
  results.foldl addResult Keyed.empty

/-- The conversions that failed. -/
def failures (results : List (Path × Except Error Record)) : List (Path × Error) :=
  results.filterMap fun result => match result.2 with
    | .ok _ => none
    | .error e => some (result.1, e)

/-- The reason for which a pass fails when conversions have failed. -/
def conversionFailure (failed total : Nat) (p : Path) (e : Error) : String :=
  toString failed ++ " of " ++ toString total ++ " files failed to convert; first: " ++ p.text ++ ": "
    ++ e.message

/-- The conversions of all sources, or the first failure. -/
def allConverted (t : LiveTable) (results : List (Path × Except Error Record)) :
    Except Error LedgerMap :=
  match failures results with
  | [] => .ok (conversions results)
  | (p, e) :: rest =>
    .error (.refreshFailed t.name (conversionFailure (rest.length + 1) results.length p e))

/-- The artifact that a converted source adds to a table. -/
def selectArtifact (t : LiveTable) (r : Record) : Except Error ArtifactRef :=
  match t.origin.artifact? r with
  | some a => .ok a
  | none => .error (.refreshFailed t.name (t.origin.missingTable r))

/-- A partition with the artifacts of its files. -/
def selectPartition (t : LiveTable) (m : LedgerMap) (p : Partition) :
    Except Error PartitionEntry := do
  let records := p.files.filterMap fun file => (m.get? file.components).map LedgerEntry.record
  return ⟨p, ← records.mapM t.selectArtifact⟩

/-- Whether a snapshot reads the same artifacts. -/
def sameSelection (s : Snapshot) (keys : List PartitionKey) (partitions : List PartitionEntry) : Bool :=
  s.keys == keys && s.partitions.length == partitions.length
    && (s.partitions.zip partitions).all fun (a, b) => Record.sameArtifacts a.artifacts b.artifacts

/-- The paths of artifacts in order, each once. -/
def artifactPaths (partitions : List PartitionEntry) : List Path :=
  (Keyed.ofList (partitions.flatMap fun entry =>
    entry.artifacts.map fun a => (a.path.components, a.path))).values

/-- The columns that artifacts have together. -/
def mergedColumns (fs : Files) (partitions : List PartitionEntry) : Except Error Schema :=
  ((artifactPaths partitions).mapM (Artifact.schema fs)).map Schema.merge

/-- The columns of a candidate: those of the current snapshot if it reads the same artifacts. -/
def columns (t : LiveTable) (fs : Files) (keys : List PartitionKey)
    (partitions : List PartitionEntry) : Except Error Schema :=
  -- The schemas of unchanged artifacts need not be read again; time zero means that there was no
  -- refresh yet, so that the empty snapshot is never taken for a known one.
  if sameSelection t.current keys partitions && t.current.builtAt != 0 then .ok t.current.dataSchema
  else mergedColumns fs partitions

/-- Ends with a cancellation if a pass is called off at some point. -/
def unlessCalledOff (calledOff : Checkpoint → Bool) (point : Checkpoint) : Except Error Unit :=
  if calledOff point then .error .cancelled else .ok ()

/-- The candidate that follows from a layout and the conversions of its files. -/
def assemble (t : LiveTable) (fs : Files) (calledOff : Checkpoint → Bool) (layout : Layout)
    (results : List (Path × Except Error Record)) : Except Error Snapshot := do
  -- A pass that is called off ends as such, even if a conversion has failed, too.
  unlessCalledOff calledOff .converted
  let records ← t.allConverted results
  let partitions ← layout.partitions.mapM (t.selectPartition records)
  unlessCalledOff calledOff .selected
  let columns ← t.columns fs layout.keys partitions
  unlessCalledOff calledOff .built
  return Snapshot.build layout.keys partitions records columns fs.clock

/-- The snapshot of the sources as they are now. -/
def candidate (t : LiveTable) (w : Workspace) (fs : Files) (calledOff : Checkpoint → Bool) :
    Except Error Snapshot × Workspace × Files :=
  match t.origin.layout (w.detection t.maxDepth) fs with
  | .error e => (.error e, w, fs)
  | .ok layout => match unlessCalledOff calledOff .detected with
    | .error e => (.error e, w, fs)
    | .ok () =>
      let (results, w, fs) := w.ensureAll fs layout.files
      -- Records made during the pass are kept, whatever becomes of the candidate.
      (t.assemble fs calledOff layout results, w, fs.tick)

/-! ### Passes -/

/-- The start of a pass clears the flag; the pass keeps what the flag was. -/
def beginPass (t : LiveTable) : Bool × LiveTable := (t.stale, { t with stale := false })

/-- The end of a pass, given what the flag was at its start. The answer tells whether the snapshot
was replaced. -/
def endPass (t : LiveTable) (wasStale : Bool) (built : Except Error Snapshot) (now : Nat) :
    Except Error Bool × LiveTable :=
  let t := { t with passes := t.passes + 1 }
  match built with
  | .error e =>
    -- A signal that came during the pass stands in `t.stale` and is never lost.
    let asked := if e.root = .cancelled then wasStale else true
    (.error e, { t with stale := t.stale || asked })
  | .ok s =>
    let t := { t with refreshedAt := some now }
    -- The old snapshot stays if nothing has changed, so that its time of building stays, too.
    if t.current.sameContent s then (.ok false, t) else (.ok true, { t with current := s })

/-- A pass without a candidate changes neither the snapshot nor the time of the last refresh. -/
theorem endPass_of_error (t : LiveTable) (wasStale : Bool) (e : Error) (now : Nat) :
    (t.endPass wasStale (.error e) now).2.current = t.current
      ∧ (t.endPass wasStale (.error e) now).2.refreshedAt = t.refreshedAt := ⟨rfl, rfl⟩

/-- The end of a pass with what comes after it: after a success the ledger is saved if it can be. -/
def finishPass (t : LiveTable) (w : Workspace) (fs : Files) (wasStale : Bool)
    (built : Except Error Snapshot) : Except Error Bool × LiveTable × Workspace × Files :=
  match t.endPass wasStale built fs.clock with
  | (.ok swapped, t) =>
    let (w, fs) := w.trySave fs
    (.ok swapped, t, w, fs)
  | (.error e, t) => (.error e, t, w, fs)

/-- One pass. -/
def refresh (t : LiveTable) (w : Workspace) (fs : Files) (calledOff : Checkpoint → Bool) :
    Except Error Bool × LiveTable × Workspace × Files :=
  let (wasStale, t) := t.beginPass
  let (built, w, fs) := t.candidate w fs calledOff
  t.finishPass w fs wasStale built

/-- A pass that nobody calls off. -/
def uninterrupted : Checkpoint → Bool := fun _ => false

/-- Refreshes if that is due. A failure is kept, and the snapshot stays. -/
def ensureFresh (t : LiveTable) (w : Workspace) (fs : Files) : LiveTable × Workspace × Files :=
  if t.needsRefresh fs.clock then
    match t.refresh w fs uninterrupted with
    | (.ok _, t, w, fs) => (t, w, fs)
    | (.error e, t, w, fs) => ({ t with deferred := some e }, w, fs)
  else (t, w, fs)

/-- The failure that was kept, which is then forgotten. -/
def takeError (t : LiveTable) : Option Error × LiveTable := (t.deferred, { t with deferred := none })

end LiveTable

end SourceTables

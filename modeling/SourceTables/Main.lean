import SourceTables.Arguments
import SourceTables.LogLevel
import Std.Time.DateTime.Timestamp

/-!
# `SourceTables.Main`: commands on directories of the file system

A command runs on a tree of files in memory. The tree is loaded from the command's directory and the
directory of its artifacts; what the command has changed is written afterwards. Artifacts get their
modification times when they are written, and the ledger is written last, with these times.
-/

set_option autoImplicit false

namespace SourceTables.Main

/-- A point in time in nanoseconds since 1970-01-01. -/
def nanoseconds (t : IO.FS.SystemTime) : Int := t.sec * 1000000000 + Int.ofNat t.nsec.toNat

/-- The location of an absolute path. -/
def locationOf (p : Path) : Location :=
  p.components.filterMap fun
    | .name text => some text
    | _ => none

/-- The absolute path of a location. -/
def pathOf (location : Location) : String := "/" ++ "/".intercalate location

/-- Loads an entry of a directory, with all that it holds. -/
partial def loadEntry (parent : Location) (fs : Files) (entry : IO.FS.DirEntry) : IO Files := do
  let location := parent ++ [entry.fileName]
  let info ← entry.path.symlinkMetadata
  match info.type with
  | .dir => (← entry.path.readDir).foldlM (loadEntry location) (fs.put location .directory)
  | .file =>
    let bytes ← IO.FS.readBinFile entry.path
    return fs.put location (.file bytes.toList (nanoseconds info.modified))
  | .symlink =>
    let target ← try pure (← IO.FS.realPath entry.path).toString catch _ => pure (pathOf location)
    return fs.put location (.link ⟨target⟩)
  | .other => return fs

/-- Loads a directory, with the directories above it. A path that leads to no directory is left
out. -/
def loadDirectory (fs : Files) (p : Path) : IO Files := do
  try
    let place ← IO.FS.realPath p.text
    let entries ← place.readDir
    let location := locationOf ⟨place.toString⟩
    let above := (List.range location.length).map fun n => location.take (n + 1)
    let fs := above.foldl (fun fs l => fs.put l .directory) fs
    entries.foldlM (loadEntry location) fs
  catch _ => return fs

/-- Puts a file in its place as a whole. -/
def storeFile (location : Location) (bytes : Bytes) : IO Unit := do
  let place := pathOf location
  IO.FS.writeBinFile (place ++ ".tmp") ⟨bytes.toArray⟩
  IO.FS.rename (place ++ ".tmp") place

/-- Writes a node that a command has added or changed. The answer is the time that a file got. -/
def storeNode (location : Location) (node : Node) : IO (Option Nat) := do
  match node with
  | .directory =>
    IO.FS.createDirAll (pathOf location)
    return none
  | .link _ => return none
  | .file bytes _ =>
    storeFile location bytes
    let place ← IO.FS.realPath (pathOf location)
    return some (Fingerprint.clampTime (nanoseconds (← place.metadata).modified))

/-- Writes what a command has changed, the ledger last. -/
def store (before after : Files) (ledger : Path) : IO Unit := do
  let ledgerLocation := match after.stat ledger with
    | .ok (location, _) => location
    | .error _ => []
  for (location, node) in before.nodes.entries do
    if (after.node? location).isNone && node ≠ .directory then
      IO.FS.removeFile (pathOf location)
  let mut times : List (Location × Nat) := []
  for (location, node) in after.nodes.entries do
    if before.node? location ≠ some node && location ≠ ledgerLocation then
      if let some time ← storeNode location node then
        times := (location, time) :: times
  let known := times
  let time? (p : Path) : Option Nat :=
    match after.stat p with
    | .ok (location, _) => known.lookup location
    | .error _ => none
  match after.node? ledgerLocation with
  | some (.file bytes modified) =>
    if before.node? ledgerLocation ≠ some (.file bytes modified) then
      let text := match LedgerMap.parse? bytes with
        | some m => Text.encodeUtf8 (m.withTimes time?).render
        | none => bytes
      storeFile ledgerLocation text
  | _ => return

/-- Runs a command. The answer is the exit code. -/
def run (i : Invocation) : IO UInt32 := do
  if let some word := i.log then
    if let .error e := LogLevel.ofWord word then
      IO.eprintln ("Warning: " ++ e)
  let config := i.options.config
  let now := (← Std.Time.Timestamp.now).toNanosecondsSinceUnixEpoch.val
  let home := locationOf ⟨(← IO.currentDir).toString⟩
  let before ← loadDirectory (.initial home now.toNat) i.dir
  let before ← loadDirectory before (config.artifactDirFor i.dir)
  let (out, after) := i.command.run before i.dir config
  store before after (Ledger.initial i.dir).file
  IO.print out.text
  match out.outcome with
  | .error reason =>
    IO.eprintln ("Error: " ++ reason)
    return 1
  | .ok (some failed) =>
    if i.command = .convert ∧ failed ≠ 0 then
      IO.eprintln ("Error: " ++ toString failed ++ " files failed to convert")
      return 1
    else return 0
  | .ok none => return 0

end SourceTables.Main

/-- Runs the command that the arguments ask for. -/
def main (arguments : List String) : IO UInt32 := do
  match SourceTables.Invocation.parse arguments with
  | .error reason =>
    IO.eprintln reason
    return 2
  | .ok i => SourceTables.Main.run i

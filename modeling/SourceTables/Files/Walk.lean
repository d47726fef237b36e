import SourceTables.Files.Basic

/-!
# `SourceTables.Files.Walk`: all entries below a directory

A walk visits a directory's entries in the order of their names, each directory before what it
holds. Links are followed. A link that leads nowhere, or back to a directory that the walk is in,
ends the walk with an error. `keep` leaves out entries, and directories with all they hold.
-/

set_option autoImplicit false

namespace SourceTables

/-- An entry that a walk has found. -/
structure Found where
  path : Path
  isDirectory : Bool
deriving DecidableEq

/-- Why a walk ends early. -/
inductive WalkError where
  | unreadable (path : Path) (cause : FileError)
  /-- A link leads back to a directory above it. -/
  | loop (path ancestor : Path)
deriving DecidableEq

/-- The text of a walk's error. -/
def WalkError.message : WalkError → String
  | .unreadable path cause => "IO error for operation on " ++ path.text ++ ": " ++ cause.message
  | .loop path ancestor =>
    "File system loop found: " ++ path.text ++ " points to an ancestor " ++ ancestor.text

/-- The file system error behind a walk's error. -/
def WalkError.cause : WalkError → FileError
  | .unreadable _ cause => cause
  | .loop .. => .walkFailed

namespace Files

/-- A directory that a walk is in. -/
structure Level where
  location : Location
  path : Path

/-- The entries below the innermost of the directories that the walk is in, `above` being the
others. `fuel` bounds the depth. -/
def walkBelow (fs : Files) (keep : Path → String → Bool) (here : Level) (above : List Level) :
    Nat → Except WalkError (List Found)
  | 0 => .error (.loop here.path here.path)
  | fuel + 1 => do
    let visit (name : String) : Except WalkError (List Found) := do
      let child := here.path.child name
      let isLink := match fs.node? (here.location ++ [name]) with
        | some (.link _) => true
        | _ => false
      match fs.follow true linkLimit here.location [name] with
      | .error e => .error (.unreadable child e)
      | .ok (.vacant _) => .error (.unreadable child .notFound)
      | .ok (.taken target .directory) =>
        match (here :: above).find? (fun level => isLink && level.location == target) with
        | some level => .error (.loop child level.path)
        | none =>
          if keep child name then
            return ⟨child, true⟩ :: (← fs.walkBelow keep ⟨target, child⟩ (here :: above) fuel)
          else return []
      | .ok (.taken _ (.file ..)) => return if keep child name then [⟨child, false⟩] else []
      | .ok (.taken _ (.link _)) => return []
    let parts ← (fs.namesAt here.location).mapM visit
    return parts.flatten

/-- The entries below a directory. A file has none. -/
def walk (fs : Files) (root : Path) (keep : Path → String → Bool) :
    Except WalkError (List Found) :=
  match fs.stat root with
  | .error e => .error (.unreadable root e)
  | .ok (location, .directory) =>
    let bound := fs.nodes.size + 2
    fs.walkBelow keep ⟨location, root⟩ [] (bound * bound)
  | .ok _ => .ok []

/-- The files and links below the directory at `location`, which is called `path`; links are not
followed. `fuel` bounds the depth. -/
def leavesAt (fs : Files) (location : Location) (path : Path) : Nat → List Path
  | 0 => []
  | fuel + 1 => (fs.namesAt location).flatMap fun name =>
    match fs.node? (location ++ [name]) with
    | some .directory => fs.leavesAt (location ++ [name]) (path.child name) fuel
    | _ => [path.child name]

/-- The files and links below a directory, in order. -/
def leaves (fs : Files) (p : Path) : List Path :=
  match fs.stat p with
  | .ok (location, .directory) => Path.sort (fs.leavesAt location p (fs.nodes.size + 1))
  | _ => []

end Files

end SourceTables

import SourceTables.Error
import SourceTables.Keyed

/-!
# `SourceTables.Files`: a tree of files

A tree of files is a value: what stands at each location, the directory that relative paths start
from, and a clock that gives every write its own modification time. A location is the list of names
from the root; a path leads to a location through links, `.` and `..`.

A path is followed piece by piece. Each piece needs a directory to stand in, an empty piece or `.`
stays there, `..` goes up, and a link continues at its target; more than `linkLimit` links are
refused.
-/

set_option autoImplicit false

namespace SourceTables

/-- The content of a file. -/
abbrev Bytes := List UInt8

/-- The names from the root to a place. -/
abbrev Location := List String

/-- What stands at a location. -/
inductive Node where
  | file (content : Bytes) (modified : Int)
  | directory
  | link (target : Path)
deriving DecidableEq

/-- A tree of files. -/
structure Files where
  nodes : Keyed Location Node
  /-- Where relative paths start. -/
  home : Location
  /-- The time of the next write, in nanoseconds since 1970-01-01. -/
  clock : Nat

/-- What a path leads to. -/
inductive Place where
  | taken (location : Location) (node : Node)
  /-- Nothing stands there, but its directory does. -/
  | vacant (location : Location)

namespace Files

/-- How many links one path may lead through. -/
def linkLimit : Nat := 40

/-- The tree that holds nothing but its home directory. -/
def initial (home : Location) (clock : Nat) : Files :=
  { nodes := Keyed.ofList ((List.range home.length).map fun n => (home.take (n + 1), .directory))
    home, clock }

/-- What stands at a location. The root is a directory. -/
def node? (fs : Files) (location : Location) : Option Node :=
  if location = [] then some .directory else fs.nodes.get? location

/-- Follows the pieces of a path from a location. `through` says whether a link at the end is
followed as well, and `onward` goes on at the target of a link. -/
def followPieces (fs : Files) (through : Bool)
    (onward : Location → List String → Except FileError Place) (location : Location) :
    List String → Except FileError Place
  | [] => match fs.node? location with
    | none => .error .notFound
    | some node => .ok (.taken location node)
  | piece :: rest => match fs.node? location with
    | none => .error .notFound
    | some node =>
      if node ≠ .directory then .error .notDirectory
      else if piece = "" ∨ piece = "." then fs.followPieces through onward location rest
      else if piece = ".." then fs.followPieces through onward location.dropLast rest
      else
        let next := location ++ [piece]
        match fs.node? next with
        -- Slashes at the end do not keep a name from being vacant.
        | none => if rest.all (· = "") then .ok (.vacant next) else .error .notFound
        | some (.link target) =>
          if rest = [] ∧ !through then .ok (.taken next (.link target))
          -- A target is seen from the directory that holds the link.
          else onward (if target.isAbsolute then [] else location) (target.rawPieces ++ rest)
        | some _ => fs.followPieces through onward next rest

/-- Follows the pieces of a path from a location, through a number of links at most. -/
def follow (fs : Files) (through : Bool) :
    Nat → Location → List String → Except FileError Place
  | 0 => fs.followPieces through fun _ _ => .error .tooManyLinks
  | links + 1 => fs.followPieces through (fs.follow through links)

/-- Follows a path. -/
def resolve (fs : Files) (p : Path) (through : Bool) : Except FileError Place :=
  if p.text = "" then .error .notFound
  else fs.follow through linkLimit (if p.isAbsolute then [] else fs.home) p.rawPieces

/-- What stands where a path leads, links followed. -/
def stat (fs : Files) (p : Path) : Except FileError (Location × Node) :=
  match fs.resolve p true with
  | .ok (.taken location node) => .ok (location, node)
  | .ok (.vacant _) => .error .notFound
  | .error e => .error e

/-- Whether a path leads to something. -/
def exists? (fs : Files) (p : Path) : Bool := (fs.stat p).toBool

/-- Whether a path leads to a directory. -/
def isDirectory (fs : Files) (p : Path) : Bool :=
  match fs.stat p with
  | .ok (_, .directory) => true
  | _ => false

/-- Whether a path leads to a file. -/
def isFile (fs : Files) (p : Path) : Bool :=
  match fs.stat p with
  | .ok (_, .file ..) => true
  | _ => false

/-- The content of a file. -/
def content (fs : Files) (p : Path) : Except FileError Bytes :=
  match fs.stat p with
  | .ok (_, .file bytes _) => .ok bytes
  | .ok _ => .error .isDirectory
  | .error e => .error e

/-- The names in the directory at a location, in order. -/
def namesAt (fs : Files) (location : Location) : List String :=
  fs.nodes.keys.filterMap fun key =>
    if key ≠ [] ∧ key.dropLast = location then key.getLast? else none

/-- The names in a directory, in order. -/
def names (fs : Files) (p : Path) : Except FileError (List String) :=
  match fs.stat p with
  | .ok (location, .directory) => .ok (fs.namesAt location)
  | .ok _ => .error .notDirectory
  | .error e => .error e

/-- The tree with something else at a location. -/
def put (fs : Files) (location : Location) (node : Node) : Files :=
  { fs with nodes := fs.nodes.insert location node }

/-- The tree one tick later. -/
def tick (fs : Files) : Files := { fs with clock := fs.clock + 1 }

/-- Makes one directory. -/
def makeDirectory (fs : Files) (p : Path) : Except FileError Files :=
  match fs.resolve p false with
  | .ok (.vacant location) => .ok (fs.put location .directory)
  | .ok (.taken ..) => .error .exists
  | .error e => .error e

/-- Makes one directory, or finds it there. -/
def ensureDirectory (fs : Files) (p : Path) : Except FileError Files :=
  match fs.makeDirectory p with
  | .ok fs' => .ok fs'
  | .error e => if fs.isDirectory p then .ok fs else .error e

/-- Makes a directory and those above it; `fuel` bounds how many levels are tried. -/
def makeDirectoriesUpTo (fs : Files) (p : Path) : Nat → Except FileError Files
  | 0 => .error (.other "failed to create whole tree")
  | fuel + 1 =>
    if p.text = "" then .ok fs
    else match fs.ensureDirectory p with
      | .ok fs' => .ok fs'
      | .error .notFound =>
        match p.parent? with
        | none => .error (.other "failed to create whole tree")
        | some above => do
          let fs' ← fs.makeDirectoriesUpTo above fuel
          fs'.ensureDirectory p
      | .error e => .error e

/-- Makes a directory and those above it that are missing. -/
def makeDirectories (fs : Files) (p : Path) : Except FileError Files :=
  fs.makeDirectoriesUpTo p (p.text.length + 1)

/-- Writes a file at a location, now. -/
def writeAt (fs : Files) (location : Location) (bytes : Bytes) : Files :=
  (fs.put location (.file bytes (Int.ofNat fs.clock))).tick

/-- Writes a file in place, through links. -/
def overwrite (fs : Files) (p : Path) (bytes : Bytes) : Except FileError Files :=
  match fs.resolve p true with
  | .ok (.vacant location) | .ok (.taken location (.file ..)) => .ok (fs.writeAt location bytes)
  | .ok (.taken ..) => .error .isDirectory
  | .error e => .error e

/-- Puts a finished file in the place of whatever file or link has the name: readers see the old
content or the new one, never a part. -/
def replace (fs : Files) (p : Path) (bytes : Bytes) : Except FileError Files :=
  match fs.resolve p false with
  | .ok (.taken _ .directory) => .error .isDirectory
  | .ok (.vacant location) | .ok (.taken location _) => .ok (fs.writeAt location bytes)
  | .error e => .error e

/-- Removes a file or a link. -/
def removeFile (fs : Files) (p : Path) : Except FileError Files :=
  match fs.resolve p false with
  | .ok (.taken _ .directory) => .error .isDirectory
  | .ok (.taken location _) => .ok { fs with nodes := fs.nodes.erase location }
  | .ok (.vacant _) => .error .notFound
  | .error e => .error e

/-- Removes a file, a link, or a directory with all it holds. -/
def removeAll (fs : Files) (p : Path) : Except FileError Files :=
  match fs.resolve p false with
  | .ok (.taken location _) =>
    .ok { fs with nodes := ⟨fs.nodes.entries.filter (fun e => !location.isPrefixOf e.1)⟩ }
  | .ok (.vacant _) => .error .notFound
  | .error e => .error e

/-- Makes a link. -/
def makeLink (fs : Files) (p target : Path) : Except FileError Files :=
  match fs.resolve p false with
  | .ok (.vacant location) => .ok (fs.put location (.link target))
  | .ok (.taken ..) => .error .exists
  | .error e => .error e

/-- Sets the modification time of a file. -/
def touch (fs : Files) (p : Path) (modified : Int) : Except FileError Files :=
  match fs.stat p with
  | .ok (location, .file bytes _) => .ok (fs.put location (.file bytes modified))
  | .ok _ => .ok fs
  | .error e => .error e

end Files

end SourceTables

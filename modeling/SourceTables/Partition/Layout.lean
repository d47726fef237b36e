import SourceTables.Files.Walk
import SourceTables.Partition.Literal
import SourceTables.Partition.Segment

/-!
# `SourceTables.Partition.Layout`: partitions of a directory

The chain of a directory is its longest leading run of `key=value` names, up to a greatest depth. A
directory tree is partitioned when the chains of all its files have the same keys in the same order;
each chain is then a partition. A directory with the full chain and no files is an empty partition.
If the chains of all files are empty, the tree is one partition without keys.

Names that start with `.` or `_` are hidden, with all that lies below them.
-/

set_option autoImplicit false

namespace SourceTables

/-- A key of a partitioned directory. -/
structure PartitionKey where
  name : String
  type : TextType
deriving DecidableEq

/-- One partition. -/
structure Partition where
  /-- The keys with their values, in key order. -/
  values : List (String × Literal)
  /-- The directory, as seen from the root; empty without keys. -/
  directory : Path
  /-- The files, in order. -/
  files : List Path
deriving DecidableEq

/-- The value of a key. -/
def Partition.value? (p : Partition) (key : String) : Option Literal :=
  (p.values.find? (fun v => v.1 == key)).map Prod.snd

/-- The text of a partition: its values, or that it has none. -/
def Partition.display (p : Partition) : String :=
  if p.values.isEmpty then "(unpartitioned)"
  else "/".intercalate (p.values.map fun v => v.1 ++ "=" ++ v.2.display)

/-- Whether two partitions have the same values, directory and files. -/
def Partition.same (p q : Partition) : Bool :=
  p.values.length == q.values.length
    && (p.values.zip q.values).all (fun v => v.1.1 == v.2.1 && v.1.2.same v.2.2)
    && p.directory.same q.directory
    && p.files.map Path.components == q.files.map Path.components

/-- The partitions of a directory. -/
structure Layout where
  root : Path
  keys : List PartitionKey
  /-- In the order of their directories. -/
  partitions : List Partition
deriving DecidableEq

/-- Whether there are keys. -/
def Layout.isPartitioned (l : Layout) : Bool := !l.keys.isEmpty

/-- All files, partition by partition. -/
def Layout.files (l : Layout) : List Path := l.partitions.flatMap Partition.files

/-- An entry of a directory tree, as seen from the root. -/
inductive Entry where
  | file (path : Path)
  | directory (path : Path)
deriving DecidableEq

/-- Why directories do not agree. -/
inductive LayoutConflict where
  | repeatedKey (key : String) (dir : Path)
  | otherDepth (dir : Path) (keys expected : List String)
  | otherOrder (dir : Path) (keys expected : List String)
  | otherKeys (dir : Path) (keys expected : List String)

/-- The text of a conflict. -/
def LayoutConflict.reason : LayoutConflict → String
  | .repeatedKey key dir => "key '" ++ key ++ "' repeats in " ++ dir.text
  | .otherDepth dir keys expected =>
    dir.text ++ " has " ++ toString keys.length ++ " partition level(s), expected "
      ++ toString expected.length ++ " (" ++ "/".intercalate expected ++ ")"
  | .otherOrder dir keys expected =>
    dir.text ++ " orders keys as " ++ "/".intercalate keys ++ ", expected "
      ++ "/".intercalate expected
  | .otherKeys dir keys expected =>
    dir.text ++ " has keys " ++ "/".intercalate keys ++ ", expected " ++ "/".intercalate expected

/-- The keys of a chain of directories, with the texts of their values. -/
abbrev Chain := List KeyValue

/-- The keys of a chain, without the values. -/
def Chain.keys (chain : Chain) : List String := chain.map KeyValue.key

/-- Whether a name is hidden. -/
def isHiddenName (name : String) : Bool :=
  match name.toList with
  | '.' :: _ | '_' :: _ => true
  | _ => false

/-- Whether no part of a path is hidden. -/
def Path.isVisible (p : Path) : Bool := p.components.all (fun c => !isHiddenName c.text)

/-- How partitions are looked for. -/
structure Detection where
  /-- The greatest number of keys. -/
  maxDepth : Nat
  /-- Directories that are left out. -/
  skipped : List Path
  /-- Which files count. -/
  accepts : Path → Bool

/-- Directories that share a chain, with their files in the order in which they were found. -/
structure ChainGroup where
  directory : Path
  chain : Chain
  files : List Path

/-- The entries of a tree by their chains. -/
structure Gathered where
  groups : Keyed (List Component) ChainGroup
  /-- The directories that are nothing but a chain, in the order in which they were found. -/
  directories : List (Path × Chain)

namespace Detection

/-- The chain that names lead to, after the keys already read, and whether no name is left over. -/
def extendChain (dir : Path) (room : Nat) (chain : Chain) :
    List Component → Except LayoutConflict (Chain × Bool)
  | [] => .ok (chain, true)
  | c :: rest =>
    match room, Segment.parse? c.text with
    -- A directory deeper than the greatest depth is like one that has no key.
    | room + 1, some kv =>
      if chain.any (fun earlier => earlier.key == kv.key) then .error (.repeatedKey kv.key dir)
      else extendChain dir room (chain ++ [kv]) rest
    | _, _ => .ok (chain, false)

/-- The chain of a directory, and whether the directory is nothing but its chain. -/
def chainOf (d : Detection) (dir : Path) : Except LayoutConflict (Chain × Bool) :=
  extendChain dir d.maxDepth [] dir.components

/-- The directory that a chain of some depth ends at. -/
def chainDirectory (dir : Path) (depth : Nat) : Path := Path.ofComponents (dir.components.take depth)

/-- One more entry of a tree. -/
def gatherEntry (d : Detection) (root : Path) (g : Gathered) (entry : Entry) :
    Except LayoutConflict Gathered :=
  match entry with
  | .file rel =>
    let file := root.join rel
    if !rel.isVisible || !d.accepts file then .ok g
    else do
      -- A file belongs to the chain of its directory, not to its own name.
      let parent := rel.parent?.getD ⟨""⟩
      let (chain, _) ← d.chainOf parent
      let directory := chainDirectory parent chain.length
      let group := (g.groups.get? directory.components).getD ⟨directory, chain, []⟩
      return { g with
        groups := g.groups.insert directory.components { group with files := group.files ++ [file] } }
  | .directory rel =>
    if !rel.isVisible then .ok g
    else do
      let (chain, complete) ← d.chainOf rel
      if complete && !chain.isEmpty then
        return { g with directories := g.directories ++ [(rel, chain)] }
      else return g

/-- All entries of a tree by their chains. -/
def gather (d : Detection) (root : Path) (entries : List Entry) : Except LayoutConflict Gathered :=
  entries.foldlM (d.gatherEntry root) ⟨Keyed.empty, []⟩

/-- Whether two lists of keys hold the same keys. -/
def sameKeys (xs ys : List String) : Bool := xs.all ys.contains && ys.all xs.contains

/-- Compares the keys of a directory with those expected. -/
def checkKeys (dir : Path) (keys expected : List String) : Except LayoutConflict Unit :=
  -- The most telling difference comes first: depth, then order, then names.
  if keys = expected then .ok ()
  else if keys.length ≠ expected.length then .error (.otherDepth dir keys expected)
  else if sameKeys keys expected then .error (.otherOrder dir keys expected)
  else .error (.otherKeys dir keys expected)

/-- The keys that a tree has: those of its first chain. -/
def expectedKeys (groups : Keyed (List Component) ChainGroup) : List String :=
  match groups.values with
  | [] => []
  | first :: _ => first.chain.keys

/-- Adds the empty partition of a directory, unless it has files or lies above partitions. -/
def addEmpty (expected : List String) (groups : Keyed (List Component) ChainGroup)
    (entry : Path × Chain) : Except LayoutConflict (Keyed (List Component) ChainGroup) :=
  let (dir, chain) := entry
  let keys := chain.keys
  if groups.contains dir.components then .ok groups
  -- It holds partitions further down, or none yet.
  else if keys.length < expected.length && keys.isPrefixOf expected then .ok groups
  else do
    checkKeys dir keys expected
    return groups.insert dir.components ⟨dir, chain, []⟩

/-- The keys with their types: all values of a key are read under one type. -/
def typedKeys (expected : List String) (chains : List Chain) : List PartitionKey :=
  expected.mapIdx fun i name =>
    ⟨name, Literal.inferType (chains.filterMap fun chain => chain[i]?.map KeyValue.value)⟩

/-- The partition of a group. -/
def partitionOf (keys : List PartitionKey) (group : ChainGroup) : Partition :=
  { values := group.chain.zipWith (fun kv key => (kv.key, Literal.parse kv.value key.type)) keys
    directory := group.directory
    files := Path.sort group.files }

/-- The layout of a tree whose entries are known. -/
def layoutOf (d : Detection) (root : Path) (entries : List Entry) : Except LayoutConflict Layout := do
  let gathered ← d.gather root entries
  let expected := expectedKeys gathered.groups
  for group in gathered.groups.values do
    checkKeys group.directory group.chain.keys expected
  -- Without keys all files are in one partition, wherever they lie.
  if expected.isEmpty then
    let files := gathered.groups.values.flatMap ChainGroup.files
    return ⟨root, [], [⟨[], ⟨""⟩, Path.sort files⟩]⟩
  else
    -- Empty directories add values, which decide on the types of keys, too.
    let groups ← gathered.directories.foldlM (addEmpty expected) gathered.groups
    let keys := typedKeys expected (groups.values.map ChainGroup.chain)
    return ⟨root, keys, groups.values.map (partitionOf keys)⟩

/-- The layout of a listing. -/
def detectListing (d : Detection) (root : Path) (entries : List Entry) : Except Error Layout :=
  match d.layoutOf root entries with
  | .ok layout => .ok layout
  | .error conflict => .error (.ambiguousLayout root conflict.reason)

/-- Whether a walk goes on at an entry. -/
def keeps (d : Detection) (path : Path) (name : String) : Bool :=
  !isHiddenName name && !d.skipped.any path.startsWith

/-- The entries of a directory tree, as seen from its root. -/
def listing (d : Detection) (fs : Files) (root : Path) : Except FileError (List Entry) := do
  let found ← (fs.walk root d.keeps).mapError WalkError.cause
  return found.filterMap fun f =>
    (f.path.relativeTo? root).map (if f.isDirectory then .directory else .file)

/-- The layout of a directory. -/
def detect (d : Detection) (fs : Files) (root : Path) : Except Error Layout :=
  match d.listing fs root with
  | .ok entries => d.detectListing root entries
  | .error e => .error (.file e)

end Detection

end SourceTables

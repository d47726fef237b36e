import SourceTables.Text.Split

/-!
# `SourceTables.Path`: paths as written and as compared

A path is kept as it was written, for messages and joins. Two paths name the same place when their
components agree: a leading `/`, then the names between slashes, without empty pieces and without
`.` except where a relative path starts with it. Paths are ordered by their components.
-/

set_option autoImplicit false

namespace SourceTables

/-- A path as it was written. -/
structure Path where
  text : String
deriving DecidableEq, Inhabited

/-- One step of a path, in the order in which paths are sorted. -/
inductive Component where
  | root
  | current
  | parent
  | name (text : String)
deriving DecidableEq, Ord, Inhabited

/-- The text of a component. -/
def Component.text : Component → String
  | .root => "/"
  | .current => "."
  | .parent => ".."
  | .name text => text

namespace Path

/-- A piece of a path's text between slashes, and whether it is a component. -/
structure Piece where
  text : String
  counts : Bool
deriving DecidableEq

/-- Whether a path starts at the root. -/
def isAbsolute (p : Path) : Bool := p.text.toList.head? == some '/'

/-- The texts between the slashes of a path, without the root's slash. -/
def rawPieces (p : Path) : List String :=
  let pieces := (Text.split (· == '/') p.text.toList).map String.ofList
  if p.isAbsolute then pieces.drop 1 else pieces

/-- The pieces of a path. An empty piece never counts, and `.` counts only as the first piece of a
relative path. -/
def pieces (p : Path) : List Piece :=
  let later := fun s => Piece.mk s (s != "" && s != ".")
  match p.rawPieces with
  | [] => []
  | s :: rest =>
    (if p.isAbsolute then later s else ⟨s, s != ""⟩) :: rest.map later

/-- The component that a piece is. -/
def Piece.component (piece : Piece) : Component :=
  if piece.text = "." then .current
  else if piece.text = ".." then .parent
  else .name piece.text

/-- The components of a path. -/
def components (p : Path) : List Component :=
  let below := (p.pieces.filter Piece.counts).map Piece.component
  if p.isAbsolute then .root :: below else below

/-- Pieces without those at the end that do not count. -/
def trimEnd (pieces : List Piece) : List Piece :=
  (pieces.reverse.dropWhile (fun piece => !piece.counts)).reverse

/-- Pieces without those at the start that do not count. -/
def trimStart (pieces : List Piece) : List Piece := pieces.dropWhile (fun piece => !piece.counts)

/-- The text of pieces. -/
def textOf (pieces : List Piece) : String := "/".intercalate (pieces.map Piece.text)

/-- The path that joins another one to a directory; an absolute path stands alone. -/
def join (dir p : Path) : Path :=
  if p.isAbsolute || dir.text.isEmpty then p
  else if dir.text.toList.getLast? == some '/' then ⟨dir.text ++ p.text⟩
  else ⟨dir.text ++ "/" ++ p.text⟩

/-- The path of a name in a directory. -/
def child (dir : Path) (name : String) : Path := dir.join ⟨name⟩

/-- The path made of components, written without anything that does not count. -/
def ofComponents (cs : List Component) : Path :=
  cs.foldl (fun p c => p.child (c.text)) ⟨""⟩

/-- The path without its last component; a root and an empty path have no parent. -/
def parent? (p : Path) : Option Path :=
  match (trimEnd p.pieces).reverse with
  | [] => none
  | _ :: above =>
    let text := textOf (trimEnd above.reverse)
    some ⟨if p.isAbsolute then "/" ++ text else text⟩

/-- The last component, if it is a name. -/
def fileName? (p : Path) : Option String :=
  match p.components.getLast? with
  | some (.name text) => some text
  | _ => none

/-- A file name cut at its last dot: what stands before and after it. A dot at the start does not
count. -/
def cutName (name : String) : String × Option String :=
  let after := name.toList.reverse.takeWhile (· != '.')
  let before := (name.toList.reverse.drop after.length).drop 1
  -- Without a dot, or with one at the start alone, there is no extension.
  if before.isEmpty then (name, none)
  else (String.ofList before.reverse, some (String.ofList after.reverse))

/-- The file name without its extension. -/
def stem? (p : Path) : Option String := p.fileName?.map (fun name => (cutName name).1)

/-- What follows the last dot of the file name. -/
def extension? (p : Path) : Option String := p.fileName?.bind (fun name => (cutName name).2)

/-- The extension in lower case. -/
def lowerExtension? (p : Path) : Option String := p.extension?.map String.toLower

/-- Whether a path lies in a directory or is it. -/
def startsWith (p base : Path) : Bool := base.components.isPrefixOf p.components

/-- Pieces after the first `n` that count. -/
def dropCounting : Nat → List Piece → List Piece
  | 0, pieces => pieces
  | _, [] => []
  | n + 1, piece :: rest => if piece.counts then dropCounting n rest else dropCounting (n + 1) rest

/-- A path as seen from a directory that it lies in. -/
def relativeTo? (p base : Path) : Option Path :=
  let count := base.components.length
  if !p.startsWith base then none
  else if count = 0 then
    let text := textOf (trimEnd p.pieces)
    some ⟨if p.isAbsolute then "/" ++ text else text⟩
  else
    -- The root is a component, but no piece.
    let count := if p.isAbsolute then count - 1 else count
    some ⟨textOf (trimStart (trimEnd (dropCounting count p.pieces)))⟩

/-- A path as seen from a directory, or as it is when it does not lie there. -/
def relativeOrSelf (p base : Path) : Path := (p.relativeTo? base).getD p

/-- The order of paths. -/
def order (p q : Path) : Ordering := compare p.components q.components

/-- Whether two paths have the same components. -/
def same (p q : Path) : Bool := p.components == q.components

/-- Paths in their order; paths with the same components keep their places. -/
def sort (ps : List Path) : List Path := ps.mergeSort (fun p q => (p.order q).isLE)

end Path

end SourceTables

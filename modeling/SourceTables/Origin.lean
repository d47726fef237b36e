import SourceTables.Partition.Layout
import SourceTables.Workspace

/-!
# `SourceTables.Origin`: where the rows of a table come from

A table shows one table of one source file, or the first table of every file below a directory. From
its origin follow the files to convert and, once these are converted, the artifact that each of them
adds.
-/

set_option autoImplicit false

namespace SourceTables

/-- Where the rows of a table come from. -/
inductive Origin where
  /-- A table of a source file, the first one unless another is named. -/
  | file (path : Path) (table : Option String)
  /-- The first tables of all files below a directory. -/
  | directory (root : Path)
deriving DecidableEq, Inhabited

namespace Origin

/-- The file or directory of an origin. -/
def path : Origin → Path
  | .file path _ => path
  | .directory root => root

/-- The layout of a single file. -/
def singleFile (p : Path) : Layout :=
  { root := p.parent?.getD ⟨""⟩, keys := [], partitions := [⟨[], ⟨""⟩, [p]⟩] }

/-- The files of an origin, by partition. -/
def layout (o : Origin) (d : Detection) (fs : Files) : Except Error Layout :=
  match o with
  | .file path _ => .ok (singleFile path)
  | .directory root => d.detect fs root

/-- The artifact that a source adds. -/
def artifact? (o : Origin) (r : Record) : Option ArtifactRef :=
  match o with
  | .file _ (some table) => r.artifacts.find? (fun a => a.table == table)
  | .file _ none | .directory _ => some r.primary

/-- The reason for which a source adds no artifact. -/
def missingTable (o : Origin) (r : Record) : String :=
  let table := match o with
    | .file _ (some table) => table
    | .file _ none | .directory _ => r.primary.table
  r.path.text ++ " no longer contains table '" ++ table ++ "'"

end Origin

/-- How a workspace looks for partitions: its artifacts are no sources. -/
def Workspace.detection (w : Workspace) (maxDepth : Nat) : Detection :=
  { maxDepth, skipped := [w.artifactDir], accepts := w.registry.supports }

end SourceTables

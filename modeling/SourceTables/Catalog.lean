import SourceTables.LiveTable
import SourceTables.Text.Name

/-!
# `SourceTables.Catalog`: the tables of a directory

Every file that stands directly in a directory becomes a table, or several when it holds several, and
every directory there becomes one table. Hidden names, artifacts and links that lead nowhere are left
out. A table whose name is taken gets a numbered one. What cannot be bound is listed with the reason,
and everything else is bound all the same.
-/

set_option autoImplicit false

namespace SourceTables

/-- A source that became no table. -/
structure Skipped where
  path : Path
  cause : Error

/-- The tables of a directory, by name. -/
structure Catalog where
  base : Path
  workspace : Workspace
  tables : Keyed String LiveTable
  skipped : List Skipped

/-- What stands directly in a directory. -/
structure DirectoryList where
  files : List Path
  directories : List Path

namespace Files

/-- The visible files and directories in a directory, without those in another one. -/
def list (fs : Files) (dir skip : Path) : Except FileError DirectoryList := do
  let paths := ((← fs.names dir).filter (fun name => !isHiddenName name)).map dir.child
  let paths := Path.sort (paths.filter fun p => !p.startsWith skip)
  return ⟨paths.filter fs.isFile, paths.filter fs.isDirectory⟩

end Files

namespace Catalog

/-- A name that no table has, made of a name. -/
def freshName (c : Catalog) (name : String) : String :=
  Text.fresh c.tables.contains c.tables.size name

/-- Lists a source that became no table. -/
def skip (c : Catalog) (path : Path) (cause : Error) : Catalog :=
  { c with skipped := c.skipped ++ [⟨path, cause⟩] }

/-- Binds a table once its first refresh succeeds. -/
def bind (c : Catalog) (fs : Files) (config : Config) (name : String) (origin : Origin) :
    Catalog × Files :=
  let name := c.freshName name
  let table := LiveTable.ofOrigin name origin config
  match table.refresh c.workspace fs LiveTable.uninterrupted with
  | (.ok _, table, workspace, fs) =>
    ({ c with workspace, tables := c.tables.insert name table }, fs)
  | (.error e, _, workspace, fs) => ({ c with workspace }.skip origin.path e, fs)

/-- The tables that a converted file becomes: a table is named in its file only when there are
several. -/
def fileTables (p : Path) (r : Record) : List (String × Origin) :=
  -- The table of a file with one alone may change its name without being lost.
  let several := r.artifacts.length > 1
  r.artifacts.map fun a => (a.table, .file p (if several then some a.table else none))

/-- Binds all tables of a file, given its conversion. -/
def bindFile (config : Config) (state : Catalog × Files) (result : Path × Except Error Record) :
    Catalog × Files :=
  match result.2 with
  | .error e => (state.1.skip result.1 e, state.2)
  | .ok r => (fileTables result.1 r).foldl
    (fun (c, fs) (name, origin) => c.bind fs config name origin) state

/-- Binds a directory. -/
def bindDirectory (config : Config) (state : Catalog × Files) (p : Path) : Catalog × Files :=
  state.1.bind state.2 config (Text.tableName (p.fileName?.getD "")) (.directory p)

/-- Binds everything in a directory. The ledger stands in that directory. -/
def discover (fs : Files) (dir : Path) (config : Config) : Except Error (Catalog × Files) := do
  let w ← Workspace.ofDirectory fs dir config
  let found ← (fs.list dir w.artifactDir).mapError Error.file
  let (results, w, fs) := w.ensureAll fs (found.files.filter w.registry.supports)
  let start : Catalog := { base := dir, workspace := w, tables := Keyed.empty, skipped := [] }
  -- Files come before directories, so they are the first to get their names.
  let state := results.foldl (bindFile config) (start, fs)
  let (c, fs) := found.directories.foldl (bindDirectory config) state
  let (workspace, fs) := c.workspace.trySave fs
  return ({ c with workspace }, fs)

/-- Asks all tables to refresh before their next scan. -/
def markAllStale (c : Catalog) : Catalog :=
  { c with tables := ⟨c.tables.entries.map fun (name, t) => (name, t.markStale)⟩ }

end Catalog

end SourceTables

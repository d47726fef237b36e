import SourceTables.Catalog
import SourceTables.Query.Identifier
import SourceTables.Query.Plan
import SourceTables.Report

/-!
# `SourceTables.Command`: what can be asked about a directory

Each command works on a directory with its own ledger, and answers with a text and either a count or
the reason for which it ended early. Paths are shown as seen from the directory.
-/

set_option autoImplicit false

namespace SourceTables

/-- The forms of a query's result. -/
inductive ResultForm where
  | aligned
  | delimited
deriving DecidableEq

/-- What can be asked about a directory. -/
inductive Command where
  /-- Convert all files. -/
  | convert
  /-- Show keys and partitions. -/
  | partitions (maxDepth : Option Nat)
  /-- List the tables. -/
  | tables
  /-- Forget sources that are gone. -/
  | prune
  /-- Show all rows of a table. -/
  | query (text : String) (form : ResultForm)
deriving DecidableEq

/-- The settings that a caller can choose. -/
structure CommandOptions where
  cacheBytes : Option Nat := none
  engine : Option Engine := none
  artifactDir : Option Path := none
  hashContents : Bool := false

/-- The settings with a caller's choices. -/
def CommandOptions.config (o : CommandOptions) : Config :=
  let standard : Config := {}
  { standard with
    cacheMaxBytes := o.cacheBytes.getD standard.cacheMaxBytes
    engine := o.engine.getD standard.engine
    artifactDir := o.artifactDir
    hashContents := o.hashContents }

/-- The answer to a command. -/
structure Output where
  text : String
  /-- A count, for commands that have one, or why the command ended early. -/
  outcome : Except String (Option Nat)

namespace Output

/-- An answer of lines. -/
def ofLines (lines : List String) (outcome : Except String (Option Nat)) : Output :=
  ⟨String.join (lines.map (· ++ "\n")), outcome⟩

/-- An answer without text. -/
def failure (reason : String) : Output := ⟨"", .error reason⟩

end Output

namespace Command

/-! ### Converting and pruning -/

/-- Whether a command looks at an entry. -/
def looksAt (skip path : Path) (name : String) : Bool :=
  !name.startsWith "." && !path.startsWith skip

/-- All files below a directory, in order. -/
def sources (fs : Files) (dir skip : Path) : Except WalkError (List Path) := do
  let found ← fs.walk dir (looksAt skip)
  return (found.filter (fun f => !f.isDirectory)).map Found.path

/-- The line about a file's conversion. -/
def conversionLine (dir p : Path) : Except Error Record → String
  | .ok r => (p.relativeOrSelf dir).text ++ ": " ++ r.converter ++ " -> "
      ++ ", ".intercalate (r.artifacts.map ArtifactRef.table)
  | .error e => (p.relativeOrSelf dir).text ++ ": FAILED " ++ e.message

/-- Converts all files below a directory; the count is that of the failures. -/
def convertAll (fs : Files) (dir : Path) (config : Config) : Output × Files :=
  match Workspace.ofDirectory fs dir config with
  | .error e => (.failure e.message, fs)
  | .ok w => match sources fs dir w.artifactDir with
    | .error e => (.failure e.message, fs)
    | .ok found =>
      let (results, w, fs) := w.ensureAll fs (found.filter w.registry.supports)
      let lines := results.map fun (p, r) => conversionLine dir p r
      let failed := (LiveTable.failures results).length
      match w.save fs with
      | .ok (_, fs) => (.ofLines lines (.ok (some failed)), fs)
      | .error e => (.ofLines lines (.error e.message), fs)

/-- Forgets sources that are gone; the count is that of their records. -/
def pruneAll (fs : Files) (dir : Path) (config : Config) : Output × Files :=
  match Workspace.ofDirectory fs dir config with
  | .error e => (.failure e.message, fs)
  | .ok w => match w.prune fs with
    | (.error e, _, fs) => (.failure e.message, fs)
    | (.ok removed, w, fs) =>
      let lines := removed.map fun r => "pruned " ++ (r.path.relativeOrSelf dir).text
      let last := toString removed.length ++ " records pruned, "
        ++ toString w.ledger.records.size ++ " kept"
      (.ofLines (lines ++ [last]) (.ok (some removed.length)), fs)

/-! ### Showing partitions and tables -/

/-- The lines about a partition. -/
def partitionLines (dir : Path) (p : Partition) : List String :=
  (p.display ++ ": " ++ toString p.files.length ++ " files")
    :: p.files.map fun file => "  " ++ (file.relativeOrSelf dir).text

/-- The lines about a layout. -/
def layoutLines (dir : Path) (l : Layout) : List String :=
  if l.isPartitioned then
    ("keys: " ++ ", ".intercalate
        (l.keys.map fun key => key.name ++ " (" ++ key.type.dataType.name ++ ")"))
      :: l.partitions.flatMap (partitionLines dir)
  else ["unpartitioned, " ++ toString l.files.length ++ " files"]

/-- Shows the keys and the partitions of a directory. -/
def showPartitions (fs : Files) (dir : Path) (maxDepth : Option Nat) (config : Config) : Output :=
  match Registry.ofConfig config with
  | .error e => .failure e.message
  | .ok registry =>
    let d : Detection :=
      { maxDepth := maxDepth.getD config.partitionMaxDepth
        skipped := [config.artifactDirFor dir], accepts := registry.supports }
    match d.detect fs dir with
    | .error e => .failure e.message
    | .ok layout => .ofLines (layoutLines dir layout) (.ok none)

/-- The line about a column. -/
def columnLine (f : Field DataType) : String :=
  "  " ++ f.name ++ ": " ++ f.type.name ++ (if f.nullable then "" else " not null")

/-- The lines about a table. -/
def tableLines (dir : Path) (name : String) (t : LiveTable) : List String :=
  let origin := (t.origin.path.relativeOrSelf dir).text ++ match t.origin with
    | .file .. => ""
    | .directory _ => "/"
  (name ++ " <- " ++ origin ++ " (" ++ toString t.current.partitions.length ++ " partitions, "
      ++ toString t.current.artifacts.length ++ " artifacts)")
    :: t.current.schema.map columnLine

/-- Lists the tables of a directory, and what is none. -/
def listTables (fs : Files) (dir : Path) (config : Config) : Output × Files :=
  match Catalog.discover fs dir config with
  | .error e => (.failure e.message, fs)
  | .ok (c, fs) =>
    let bound := c.tables.entries.flatMap fun (name, t) => tableLines dir name t
    let skipped := c.skipped.map fun s =>
      "skipped " ++ (s.path.relativeOrSelf dir).text ++ ": " ++ s.cause.message
    (.ofLines (bound ++ skipped) (.ok none), fs)

/-! ### Queries -/

/-- The schema that a directory's tables belong to. -/
def schemaName : String := "files"

/-- The table that a query shows: the only queries are those for all columns of one table. -/
def queriedTable? (text : String) : Option String :=
  match Text.words text with
  | [select, "*", source, table] =>
    if select.toLower = "select" ∧ source.toLower = "from" then
      match Query.identifiers? table with
      | some [schema, name] => if schema = schemaName then some name else none
      | _ => none
    else none
  | _ => none

/-- The reason for which a scan ended early. -/
def executionFailure (e : Error) : String := "Failed to execute query: " ++ e.queryMessage

/-- The answer to a query, given what was read. -/
def queryOutput (form : ResultForm) (d : Scan.Drained) : Output :=
  match form with
  | .aligned => match d.failure with
    | some e => .failure (executionFailure e)
    | none =>
      if d.batches.isEmpty then .ofLines ["No results found."] (.ok none)
      else .ofLines (Report.alignedBatches d.batches) (.ok none)
  | .delimited =>
    let (text, failure) := Report.delimitedBatches d.batches
    match failure, d.failure with
    | some e, _ => ⟨text, .error e.message⟩
    | none, some e => ⟨text, .error e.queryMessage⟩
    | none, none => ⟨text, .ok none⟩

/-- The table of a query. -/
def queried? (c : Catalog) (text : String) : Option LiveTable :=
  (queriedTable? text).bind c.tables.get?

/-- Shows all rows of a table. -/
def runQuery (fs : Files) (dir : Path) (text : String) (form : ResultForm) (config : Config) :
    Output × Files :=
  match Catalog.discover fs dir config with
  | .error e => (.failure e.message, fs)
  | .ok (c, fs) => match queried? c text with
    | none => (.failure "Failed to plan query: no such table", fs)
    | some t =>
      let (t, w, fs) := t.ensureFresh c.workspace fs
      match t.plan t.current [] none none with
      | .error e => (.failure (executionFailure (.column e)), fs)
      | .ok plan =>
        let read := Artifact.read fs config.options.batchSize
        (queryOutput form (plan.start.drain read ⟨w.cache, []⟩).1, fs)

/-- Runs a command on a directory. -/
def run (c : Command) (fs : Files) (dir : Path) (config : Config) : Output × Files :=
  if fs.isDirectory dir then
    match c with
    | .convert => convertAll fs dir config
    | .partitions maxDepth => (showPartitions fs dir maxDepth config, fs)
    | .tables => listTables fs dir config
    | .prune => pruneAll fs dir config
    | .query text form => runQuery fs dir text form config
  else (.failure (dir.text ++ " is not a directory"), fs)

end Command

end SourceTables

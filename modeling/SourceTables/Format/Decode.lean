import SourceTables.Delimited.Decode
import SourceTables.Format.Basic
import SourceTables.Grid
import SourceTables.Html.Table
import SourceTables.Json.Table
import SourceTables.Markdown
import SourceTables.Office.Document
import SourceTables.Office.Workbook

/-!
# `SourceTables.Format.Decode`: the tables of a source

Every format but the columnar ones, which are read as they are, has a decoder from a file to its tables.
-/

set_option autoImplicit false

namespace SourceTables

/-- The content of a file. -/
def Files.read (fs : Files) (p : Path) : Except Error Bytes := (fs.content p).mapError Error.file

/-- The tables of named grids that are not blank. -/
def tablesOfGrids (options : ConvertOptions) (grids : List (String × List (List String))) : List Table :=
  grids.filterMap fun (name, grid) => Grid.toTable? (some name) grid options.batchSize

namespace Format

/-- The table of delimited text. -/
def decodeDelimited (fs : Files) (p : Path) (options : ConvertOptions) : Except Error (List Table) :=
  match fs.content p with
  | .error .isDirectory => .error (.column (.records FileError.isDirectory.message))
  | .error e => .error (.file e)
  | .ok bytes => match Delimited.table (UInt8.ofNat (delimiter p).toNat) options bytes with
    | .ok table => .ok [table]
    | .error fault => .error (.column fault.columnError)

/-- Whether a file holds records and not a document. -/
def holdsRecords (p : Path) : Bool :=
  p.lowerExtension? = some "jsonl" || p.lowerExtension? = some "ndjson"

/-- The tables of a document or of records. -/
def decodeJson (fs : Files) (p : Path) (options : ConvertOptions) : Except Error (List Table) :=
  match fs.content p with
  | .error .isDirectory =>
    .error (if holdsRecords p then Json.misfit else .json FileError.isDirectory.message)
  | .error e => .error (.file e)
  | .ok bytes =>
    if holdsRecords p then (Json.recordsTable options bytes).map fun table => [table]
    else Json.tables p options bytes

/-- The tables of a Markdown text; they are named by their place. -/
def decodeMarkdown (fs : Files) (p : Path) (options : ConvertOptions) : Except Error (List Table) := do
  match Text.decodeUtf8? (← fs.read p) with
  | .error _ => throw (.file .invalidText)
  | .ok text =>
    let named := (Markdown.grids text).mapIdx fun n grid => ("table" ++ toString (n + 1), grid)
    return tablesOfGrids options named

/-- The tables of a page. -/
def decodeHtml (fs : Files) (p : Path) (options : ConvertOptions) : Except Error (List Table) := do
  return tablesOfGrids options (Html.grids (Text.decodeLossy (← fs.read p)))

/-- The tables of an office document. -/
def decodeOffice (fs : Files) (p : Path) (options : ConvertOptions) (f : Format)
    (grids : Office.Package → Except Error (List (String × List (List String)))) :
    Except Error (List Table) := do
  return tablesOfGrids options (← grids (← Office.Package.ofFile fs p f))

/-- The tables of a source. -/
def decode (f : Format) (fs : Files) (p : Path) (options : ConvertOptions) :
    Except Error (List Table) :=
  match f with
  | .native => .ok []
  | .delimited => decodeDelimited fs p options
  | .json => decodeJson fs p options
  | .spreadsheet => decodeOffice fs p options f Office.workbookGrids
  | .document => decodeOffice fs p options f Office.documentGrids
  | .presentation => decodeOffice fs p options f Office.presentationGrids
  | .markdown => decodeMarkdown fs p options
  | .html => decodeHtml fs p options

end Format

end SourceTables

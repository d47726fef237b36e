import SourceTables.Config
import SourceTables.Error
import SourceTables.Keyed

/-!
# `SourceTables.Format`: the formats of sources

Each format has a name, the extensions of its files, and the parameters that its tables depend on. A
registry is a list of formats in the order in which they are asked for a file.
-/

set_option autoImplicit false

namespace SourceTables

/-- A format that sources come in. -/
inductive Format where
  /-- Columnar files, which are their own artifacts. -/
  | native
  | delimited
  | json
  | spreadsheet
  | document
  | presentation
  | markdown
  | html
deriving DecidableEq, Inhabited

/-- The parameters of a conversion, by name. -/
abbrev Params := Keyed String String

namespace Format

/-- All formats, in the order in which they are registered unless settings say otherwise. -/
def all : List Format :=
  [.native, .delimited, .json, .spreadsheet, .document, .presentation, .markdown, .html]

/-- The name of a format. -/
def id : Format → String
  | .native => "native"
  | .delimited => "delimited"
  | .json => "json"
  | .spreadsheet => "spreadsheet"
  | .document => "document"
  | .presentation => "presentation"
  | .markdown => "markdown"
  | .html => "html"

/-- The format of a name. -/
def ofId (name : String) : Except Error Format :=
  match all.find? (fun f => f.id == name) with
  | some f => .ok f
  | none => .error (.unknownConverter name)

/-- The extensions of a format's files, in lower case. -/
def extensions : Format → List String
  | .native => ["parquet", "arrow", "feather"]
  | .delimited => ["csv", "tsv", "psv"]
  | .json => ["json", "jsonl", "ndjson"]
  | .spreadsheet => ["xlsx", "xlsm"]
  | .document => ["docx"]
  | .presentation => ["pptx"]
  | .markdown => ["md", "markdown"]
  | .html => ["html", "htm"]

/-- Whether a format takes a file. -/
def accepts (f : Format) (p : Path) : Bool :=
  match p.lowerExtension? with
  | some ext => f.extensions.contains ext
  | none => false

/-- Whether a source is its own artifact. -/
def isPassthrough (f : Format) : Bool := f = .native

/-- The character between the fields of a delimited file. -/
def delimiter (p : Path) : Char :=
  match p.lowerExtension? with
  | some "tsv" => '\t'
  | some "psv" => '|'
  | _ => ','

/-- The parameters that the tables of a file depend on. -/
def params (f : Format) (p : Path) (options : ConvertOptions) : Params :=
  let shared : Params := Keyed.ofList
    [("engine", options.engine.name), ("batch_size", toString options.batchSize)]
  let inferred := ("schema_infer_max_records", toString options.inferRecords)
  match f with
  | .native => Keyed.empty
  | .delimited =>
    ((shared.insert "delimiter" (String.singleton (delimiter p))).insert "header" "true").insert
      inferred.1 inferred.2
  | .json => shared.insert inferred.1 inferred.2
  | .spreadsheet | .document | .presentation | .markdown | .html => shared

end Format

/-- The formats in use, in the order in which they are asked. -/
abbrev Registry := List Format

namespace Registry

/-- The formats of names. -/
def ofIds (names : List String) : Except Error Registry := names.mapM Format.ofId

/-- The formats that settings name. -/
def ofConfig (c : Config) : Except Error Registry :=
  match c.converters with
  | some names => ofIds names
  | none => .ok Format.all

/-- The first format that takes a file. -/
def find? (r : Registry) (p : Path) : Option Format := List.find? (fun f => f.accepts p) r

/-- Whether some format takes a file. -/
def supports (r : Registry) (p : Path) : Bool := (find? r p).isSome

end Registry

end SourceTables

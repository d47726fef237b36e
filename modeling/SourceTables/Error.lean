import SourceTables.Path

/-!
# `SourceTables.Error`: what can go wrong

Errors are causes; their wording is in `Error.message`. An error that several callers waited for is
handed to each of them by `Error.handOut`: the last one to hold it gets it as it is, the others get a
copy of errors of this library and a shared view of the rest.

Main statements: `root_handOut` and `message_handOut` (whoever gets the error, its root and its text
are the same).
-/

set_option autoImplicit false

namespace SourceTables

/-- Why the file system refuses. -/
inductive FileError where
  | notFound
  | notDirectory
  | isDirectory
  | exists
  | tooManyLinks
  | notEmpty
  | invalidText
  | invalidChecksum
  /-- A directory tree that contains itself. -/
  | walkFailed
  | other (message : String)
deriving DecidableEq

/-- The text of a file system error. -/
def FileError.message : FileError → String
  | .notFound => "No such file or directory (os error 2)"
  | .notDirectory => "Not a directory (os error 20)"
  | .isDirectory => "Is a directory (os error 21)"
  | .exists => "File exists (os error 17)"
  | .tooManyLinks => "Too many levels of symbolic links (os error 40)"
  | .notEmpty => "Directory not empty (os error 39)"
  | .invalidText => "stream did not contain valid UTF-8"
  | .invalidChecksum => "Invalid checksum"
  | .walkFailed => "directory walk failed"
  | .other message => message

/-- Faults of typed columns: in reading, building and converting them. -/
inductive ColumnError where
  /-- Delimited text that does not fall into records. -/
  | records (message : String)
  /-- A text that is no value of its column's type, or a file that is no columnar file. -/
  | value (message : String)
  /-- JSON values that fit no column. -/
  | json (message : String)
  /-- A columnar file that ends too early. -/
  | stream (message : String)
  /-- Values that no cast turns into another type. -/
  | cast (message : String)
  /-- A column that a schema does not have. -/
  | schema (message : String)
deriving DecidableEq

/-- The text of a column error. -/
def ColumnError.message : ColumnError → String
  | .records message => "Csv error: " ++ message
  | .value message => "Parser error: " ++ message
  | .json message => "Json error: " ++ message
  | .stream message => "Io error: " ++ message
  | .cast message => "Cast error: " ++ message
  | .schema message => "Schema error: " ++ message

/-- What can go wrong. -/
inductive Error where
  /-- No converter takes the file. -/
  | unsupportedFormat (path : Path)
  /-- A converter could not turn a source into tables. -/
  | conversion (path : Path) (converter message : String)
  /-- No converter has this id. -/
  | unknownConverter (id : String)
  /-- Directories that do not agree on their keys. -/
  | ambiguousLayout (root : Path) (reason : String)
  /-- The ledger could not be written. -/
  | ledgerNotSaved (path : Path) (cause : FileError)
  /-- The ledger file is no ledger. -/
  | ledgerCorrupt (path : Path) (message : String)
  /-- A refresh did not come to its end. -/
  | refreshFailed (table message : String)
  /-- A refresh was called off. -/
  | cancelled
  | file (cause : FileError)
  | column (cause : ColumnError)
  /-- A file that is no columnar file with pages, or a schema that such a file cannot hold. -/
  | paged (message : String)
  /-- A text that is no JSON document. -/
  | json (message : String)
  /-- A query that cannot be planned or run. -/
  | query (message : String)
  /-- An error that others hold as well. -/
  | shared (inner : Error)
deriving DecidableEq, Inhabited

namespace Error

/-- The error behind all sharing. -/
def root : Error → Error
  | .shared inner => inner.root
  | e => e

/-- The text of an error. -/
def message : Error → String
  | .unsupportedFormat path => "No converter handles " ++ path.text
  | .conversion path converter message =>
    "Converter '" ++ converter ++ "' failed on " ++ path.text ++ ": " ++ message
  | .unknownConverter id => "Unknown converter '" ++ id ++ "'"
  | .ambiguousLayout root reason =>
    "Ambiguous partition layout under " ++ root.text ++ ": " ++ reason
  | .ledgerNotSaved path cause =>
    "Failed to persist conversion ledger " ++ path.text ++ ": " ++ cause.message
  | .ledgerCorrupt path message =>
    "Conversion ledger " ++ path.text ++ " is unreadable: " ++ message
  | .refreshFailed table message => "Refresh of table '" ++ table ++ "' failed: " ++ message
  | .cancelled => "Refresh cancelled"
  | .file cause => "IO error: " ++ cause.message
  | .column cause => "Arrow error: " ++ cause.message
  | .paged message => "Parquet error: " ++ message
  | .json message => "JSON error: " ++ message
  | .query message => "DataFusion error: " ++ message
  | .shared inner => inner.message

/-- The text of an error that a query engine reports. -/
def queryMessage : Error → String
  | .query message => message
  | e => "External error: " ++ e.message

/-- Whether an error is about one source file alone. -/
def isFileScoped (e : Error) : Bool :=
  match e.root with
  | .unsupportedFormat _ | .conversion .. => true
  | _ => false

/-- Whether each caller can get a copy of an error. -/
def isCopyable : Error → Bool
  | .unsupportedFormat _ | .conversion .. | .unknownConverter _ | .ambiguousLayout ..
  | .ledgerCorrupt .. | .refreshFailed .. | .cancelled => true
  | .ledgerNotSaved .. | .file _ | .column _ | .paged _ | .json _ | .query _ | .shared _ => false

/-- What a caller gets of an error that it waited for, with others or as the last one. -/
def handOut (e : Error) (last : Bool) : Error :=
  if last then e
  else if e.root.isCopyable then e.root
  else .shared e

/-- Looking through sharing once is enough. -/
@[simp] theorem root_root (e : Error) : e.root.root = e.root := by
  induction e with
  | shared inner ih => simpa [root] using ih
  | _ => rfl

/-- Sharing does not change the text. -/
@[simp] theorem message_root (e : Error) : e.root.message = e.message := by
  induction e with
  | shared inner ih => exact ih
  | _ => rfl

/-- Every caller's error has the root of the error that was handed out. -/
theorem root_handOut (e : Error) (last : Bool) : (e.handOut last).root = e.root := by
  cases last with
  | true => simp [handOut]
  | false => by_cases h : e.root.isCopyable <;> simp [handOut, h, root]

/-- Every caller's error has the text of the error that was handed out. -/
theorem message_handOut (e : Error) (last : Bool) : (e.handOut last).message = e.message := by
  rw [← message_root, root_handOut, message_root]

end Error

end SourceTables

import SourceTables.Artifact.Content
import SourceTables.Error

/-!
# `SourceTables.Artifact.Store`: artifacts in files

An artifact is written as a whole and put in place of what was there. It is read by the extension of
its path. A file that is no artifact is refused, and one that ends too early is told apart from one
with other content.
-/

set_option autoImplicit false

namespace SourceTables.Artifact

/-- Makes the directory of an artifact. -/
def prepare (fs : Files) (p : Path) : Except Error Files :=
  match p.parent? with
  | none => .error (.file (.other "artifact path has no parent"))
  | some dir => (fs.makeDirectories dir).mapError Error.file

/-- Writes an artifact into its directory. -/
def write (fs : Files) (p : Path) (engine : Engine) (c : Content) : Except Error Files :=
  if c.fits engine then (fs.replace p (c.encode engine)).mapError Error.file
  else .error (.paged "a structure without members")

/-- The shortest file that can have a footer. -/
def footerSize : Nat := 10

/-- The error about a file that is no artifact. -/
def refusal (engine : Engine) (bytes : Bytes) : Error :=
  match engine with
  | .parquet => .paged "no pages"
  | .arrow =>
    if bytes.length < footerSize then .column (.stream "no footer")
    else .column (.value "Arrow file does not contain correct footer")

/-- The error about a directory in place of an artifact. -/
def directoryRefusal : Engine → Error
  | .parquet => .paged FileError.isDirectory.message
  | .arrow => .column (.stream FileError.isDirectory.message)

/-- What an artifact holds, as it was written. -/
def content (fs : Files) (p : Path) : Except Error (Engine × Content) :=
  match fs.content p, Engine.ofPath? p with
  | .error .isDirectory, some engine => .error (directoryRefusal engine)
  | .error .isDirectory, none => .error (.unsupportedFormat p)
  | .error e, _ => .error (.file e)
  | .ok _, none => .error (.unsupportedFormat p)
  | .ok bytes, some engine => match Content.decode? engine bytes with
    | some c => .ok (engine, c)
    | none => .error (refusal engine bytes)

/-- The columns of an artifact. -/
def schema (fs : Files) (p : Path) : Except Error Schema := (content fs p).map fun c => c.2.schema

/-- The schema and the batches of an artifact. -/
def read (fs : Files) (batchSize : Nat) (p : Path) : Except Error Content :=
  (content fs p).map fun c => c.2.kept c.1 batchSize

end SourceTables.Artifact

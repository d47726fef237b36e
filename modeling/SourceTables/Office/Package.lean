import SourceTables.Format.Basic
import SourceTables.Xml.Tree
import SourceTables.Zip.Archive

/-!
# `SourceTables.Office.Package`: documents in parts

An office document is an archive whose members, its parts, are XML documents. A part that is missing
may be an error or not; one that is there has to be readable.
-/

set_option autoImplicit false

namespace SourceTables.Office

/-- An opened document. -/
structure Package where
  path : Path
  format : Format
  archive : Zip.Archive

namespace Package

/-- An error about the document. -/
def failure (p : Package) (message : String) : Error := .conversion p.path p.format.id message

/-- Opens a document. -/
def ofFile (fs : Files) (path : Path) (format : Format) : Except Error Package :=
  match fs.content path with
  | .error .isDirectory => .error (.conversion path format.id "not a zip package: a directory")
  | .error e => .error (.file e)
  | .ok content => match Zip.Archive.ofBytes? content with
    | some archive => .ok ⟨path, format, archive⟩
    | none => .error (.conversion path format.id "not a zip package: no directory of members")

/-- The text of a part; none if there is no such part. -/
def text? (p : Package) (part : String) : Except Error (Option String) :=
  match p.archive.member? part with
  | none => .ok none
  | some member => match p.archive.contentOf member with
    | .error .unreadable =>
      .error (.conversion p.path "ooxml" ("failed to read " ++ part ++ ": not stored as listed"))
    | .error .corrupt => .error (.file (.other "corrupt deflate stream"))
    | .error .wrongChecksum => .error (.file .invalidChecksum)
    | .ok bytes => match Text.decodeUtf8? bytes with
      | .ok text => .ok (some text)
      | .error _ => .error (.file .invalidText)

/-- The outermost element of a text. -/
def root (p : Package) (text : String) : Except Error Xml.Element :=
  match Xml.root? text with
  | some e => .ok e
  | none => .error (p.failure "invalid XML: not well-formed")

/-- The outermost element of a part, if there is such a part. -/
def root? (p : Package) (part : String) : Except Error (Option Xml.Element) := do
  match ← p.text? part with
  | none => return none
  | some text => return some (← p.root text)

/-- The outermost element of a part that has to be there. -/
def requiredRoot (p : Package) (part : String) : Except Error Xml.Element := do
  match ← p.root? part with
  | some e => return e
  | none => throw (p.failure ("missing package part " ++ part))

end Package

end SourceTables.Office

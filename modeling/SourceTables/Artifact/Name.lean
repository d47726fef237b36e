import SourceTables.Fingerprint
import SourceTables.Format.Basic
import SourceTables.Text.Name

/-!
# `SourceTables.Artifact.Name`: names of artifacts

The artifacts of a source are named `<stem>-<digest>[__table].<extension>`. The digest covers the
source's fingerprint and the parameters of the conversion, so that artifacts of different versions of
a source have different names.
-/

set_option autoImplicit false

namespace SourceTables

/-- The table name of a source: that of its file name without extension. -/
def tableStem (p : Path) : String := Text.tableName (p.stem?.getD "")

/-- Where the artifacts of one conversion go. -/
structure Destination where
  dir : Path
  stem : String
  digest : String
  engine : Engine

namespace Destination

/-- The bytes that the digest of a conversion is taken of. -/
def digestBytes (source : Fingerprint) (params : Params) : Bytes :=
  Text.encodeUtf8 source.digest
    ++ params.entries.flatMap fun (name, value) => Text.encodeUtf8 (name ++ "=" ++ value ++ ";")

/-- The destination of a conversion. -/
def ofSource (dir : Path) (source : Fingerprint) (params : Params) (engine : Engine) : Destination :=
  { dir, stem := tableStem source.path
    digest := Fingerprint.shortDigest (digestBytes source params), engine }

/-- The path of an artifact; a source with several tables has one for each. -/
def artifactPath (d : Destination) (table : Option String) : Path :=
  let suffix := match table with
    | some table => "__" ++ table
    | none => ""
  d.dir.join ⟨d.stem ++ "-" ++ d.digest ++ suffix ++ "." ++ d.engine.name⟩

end Destination

end SourceTables

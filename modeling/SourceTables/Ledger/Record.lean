import SourceTables.Fingerprint
import SourceTables.Format.Basic
import SourceTables.Json.Basic
import SourceTables.Json.Parser
import SourceTables.Json.Printer

/-!
# `SourceTables.Ledger.Record`: what is known about a conversion

A record tells which artifacts a conversion made, from which version of its source, and with which
parameters. Records are written as JSON objects; a fingerprint without a digest and a record without
further artifacts leave those members out.
-/

set_option autoImplicit false

namespace SourceTables

/-- A table of a source and its artifact. -/
structure ArtifactRef where
  table : String
  path : Path
  fingerprint : Fingerprint
deriving DecidableEq

/-- A conversion of a source. -/
structure Record where
  source : Fingerprint
  converter : String
  primary : ArtifactRef
  /-- In nanoseconds since 1970-01-01. -/
  convertedAt : Nat
  params : Params
  /-- The tables after the first one. -/
  additional : List ArtifactRef
deriving DecidableEq

namespace ArtifactRef

/-- Whether two references agree; paths are compared by their components. -/
def same (a b : ArtifactRef) : Bool :=
  a.table == b.table && a.path.same b.path && a.fingerprint.same b.fingerprint

end ArtifactRef

namespace Record

/-- The path of the source. -/
def path (r : Record) : Path := r.source.path

/-- All artifacts, the first table's first. -/
def artifacts (r : Record) : List ArtifactRef := r.primary :: r.additional

/-- Whether two lists of references agree. -/
def sameArtifacts (as bs : List ArtifactRef) : Bool :=
  as.length == bs.length && (as.zip bs).all (fun (a, b) => a.same b)

/-- Whether two records agree; paths are compared by their components. -/
def same (a b : Record) : Bool :=
  a.source.same b.source && a.converter == b.converter && a.convertedAt == b.convertedAt
    && a.params == b.params && sameArtifacts a.artifacts b.artifacts

end Record

open Json (Value)

/-- A natural number as a JSON value. -/
def naturalValue (n : Nat) : Value := .number (toString n)

namespace Fingerprint

/-- A fingerprint as a JSON value. -/
def toValue (f : Fingerprint) : Value :=
  .object ([("path", .text f.path.text), ("sizeBytes", naturalValue f.size),
    ("modifiedAtNanos", naturalValue f.modified)]
    ++ (f.hash.map fun h => ("contentHash", .text h)).toList)

/-- The fingerprint that a JSON value stands for. -/
def ofValue? (v : Value) : Option Fingerprint := do
  let [path, size, modified, hash] ←
    v.members? ["path", "sizeBytes", "modifiedAtNanos", "contentHash"] | none
  return {
    path := ⟨← Json.required Value.text? path⟩
    size := ← Json.required Value.natural? size
    modified := ← Json.required Value.natural? modified
    hash := ← Json.withDefault (Value.optional? Value.text?) none hash }

end Fingerprint

namespace ArtifactRef

/-- The members of a reference. -/
def members (a : ArtifactRef) : List (String × Value) :=
  [("tableName", .text a.table), ("artifactPath", .text a.path.text),
   ("artifactFingerprint", a.fingerprint.toValue)]

/-- A reference as a JSON value. -/
def toValue (a : ArtifactRef) : Value := .object a.members

/-- The reference that a JSON value stands for. -/
def ofValue? (v : Value) : Option ArtifactRef := do
  let [table, path, fingerprint] ←
    v.members? ["tableName", "artifactPath", "artifactFingerprint"] | none
  return {
    table := ← Json.required Value.text? table
    path := ⟨← Json.required Value.text? path⟩
    fingerprint := ← Json.required Fingerprint.ofValue? fingerprint }

end ArtifactRef

/-- Parameters as a JSON value. -/
def Params.toValue (p : Params) : Value := .object (p.entries.map fun (k, v) => (k, .text v))

/-- The parameters that a JSON value stands for; the last of several values of a name stands. -/
def Params.ofValue? : Value → Option Params
  | .object members =>
    (members.mapM fun (m : String × Value) => m.2.text?.map fun t => (m.1, t)).map Keyed.ofList
  | _ => none

namespace Record

/-- A record as a JSON value. -/
def toValue (r : Record) : Value :=
  .object ([("sourceFingerprint", r.source.toValue), ("converterId", .text r.converter)]
    ++ r.primary.members
    ++ [("convertedAtNanos", naturalValue r.convertedAt), ("converterParams", Params.toValue r.params)]
    ++ (if r.additional.isEmpty then []
      else [("additionalArtifacts", .array (r.additional.map ArtifactRef.toValue))]))

/-- The record that a JSON value stands for. -/
def ofValue? (v : Value) : Option Record := do
  let [source, converter, table, path, fingerprint, convertedAt, params, additional] ←
    v.members? ["sourceFingerprint", "converterId", "tableName", "artifactPath",
      "artifactFingerprint", "convertedAtNanos", "converterParams", "additionalArtifacts"] | none
  return {
    source := ← Json.required Fingerprint.ofValue? source
    converter := ← Json.required Value.text? converter
    primary := {
      table := ← Json.required Value.text? table
      path := ⟨← Json.required Value.text? path⟩
      fingerprint := ← Json.required Fingerprint.ofValue? fingerprint }
    convertedAt := ← Json.required Value.natural? convertedAt
    params := ← Json.withDefault Params.ofValue? Keyed.empty params
    additional := ← Json.withDefault (fun v => do (← v.items?).mapM ArtifactRef.ofValue?) [] additional }

end Record

end SourceTables

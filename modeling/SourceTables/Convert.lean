import SourceTables.Artifact.Name
import SourceTables.Artifact.Store
import SourceTables.Format.Decode

/-!
# `SourceTables.Convert`: from a source to its artifacts

A columnar source is its own artifact. Any other source is decoded, and each of its tables written
under a name that the source, its parameters and the table determine; when there are several tables,
their names are made different. All errors tell which source and which converter they are about.
-/

set_option autoImplicit false

namespace SourceTables

/-- A table of a source and where its rows are. -/
structure Produced where
  table : String
  artifact : Path
deriving DecidableEq

namespace Convert

/-- An error as one of a conversion. -/
def failure (source : Path) (f : Format) : Error → Error
  | .conversion path converter message => .conversion path converter message
  | e => .conversion source f.id e.message

/-- The names that the tables of one source have beside the source's own, each different from those
before it. -/
def suffixesFrom (taken : List String) (position : Nat) : List (Option String) → List String
  | [] => []
  | name :: rest =>
    -- Tables without a name are numbered by their position.
    let base := Text.tableName (name.getD ("table" ++ toString (position + 1)))
    -- Of more numbered names than there are taken ones, one is free.
    let suffix := Text.fresh taken.contains taken.length base
    suffix :: suffixesFrom (suffix :: taken) (position + 1) rest

/-- What is added to a source's name for each of its tables; nothing if there is one table alone. -/
def suffixes (names : List (Option String)) : List (Option String) :=
  match names with
  | [_] => [none]
  | names => (suffixesFrom [] 0 names).map some

/-- The name of a table. -/
def tableName (stem : String) : Option String → String
  | some suffix => stem ++ "__" ++ suffix
  | none => stem

/-- Writes a table. -/
@[irreducible] def writeOne (f : Format) (source : Path) (destination : Destination) (fs : Files)
    (suffix : Option String) (table : Table) : Except Error Produced × Files :=
  let artifact := destination.artifactPath suffix
  match Artifact.prepare fs artifact with
  | .error e => (.error (failure source f e), fs)
  | .ok fs => match Artifact.write fs artifact destination.engine ⟨table.schema, table.batches⟩ with
    | .error e => (.error (failure source f e), fs)
    | .ok fs => (.ok ⟨tableName (tableStem source) suffix, artifact⟩, fs)

/-- Writes tables, one after another. Those before a failure stay written. -/
def writeAll (f : Format) (source : Path) (destination : Destination) (fs : Files) :
    List (Option String × Table) → Except Error (List Produced) × Files
  | [] => (.ok [], fs)
  | (suffix, table) :: rest =>
    match writeOne f source destination fs suffix table with
    | (.error e, fs) => (.error e, fs)
    | (.ok first, fs) =>
      let (result, fs) := writeAll f source destination fs rest
      (result.map (first :: ·), fs)

end Convert

/-- Converts a source. -/
def Format.convert (f : Format) (fs : Files) (source : Path) (destination : Destination)
    (options : ConvertOptions) : Except Error (List Produced) × Files :=
  if f.isPassthrough then
    -- A columnar source has to be readable, but nothing is copied.
    match Artifact.schema fs source with
    | .ok _ => (.ok [⟨tableStem source, source⟩], fs)
    | .error e => (.error (Convert.failure source f e), fs)
  else match f.decode fs source options with
    | .error e => (.error (Convert.failure source f e), fs)
    | .ok [] => (.error (.conversion source f.id "no tables found"), fs)
    | .ok tables =>
      Convert.writeAll f source destination fs
        ((Convert.suffixes (tables.map Table.name)).zip tables)

end SourceTables

import SourceTables.Json.Basic
import SourceTables.Json.Parser
import SourceTables.Path

/-!
# `SourceTables.Config`: settings

Settings are read from a JSON object, or from an array with the members in their order. Every member
has a default.
-/

set_option autoImplicit false

namespace SourceTables

/-- The encoding of artifacts. -/
inductive Engine where
  | parquet
  | arrow
deriving DecidableEq, Inhabited

/-- The name of an encoding, which is also the extension of its files. -/
def Engine.name : Engine → String
  | .parquet => "parquet"
  | .arrow => "arrow"

/-- The encoding that a word names, in any letter case; the error is its text. -/
def Engine.ofWord (word : String) : Except String Engine :=
  let lower := word.toLower
  if lower = "parquet" then .ok .parquet
  else if lower = "arrow" || lower = "ipc" then .ok .arrow
  else .error ("unknown engine '" ++ lower ++ "'")

/-- The encoding that a file's extension stands for. -/
def Engine.ofPath? (p : Path) : Option Engine :=
  match p.lowerExtension? with
  | some "parquet" => some .parquet
  | some "arrow" | some "feather" | some "ipc" => some .arrow
  | _ => none

/-- The settings of conversion, detection, caching and refreshing. -/
structure Config where
  engine : Engine := .parquet
  /-- How many bytes of decoded batches are kept. -/
  cacheMaxBytes : Nat := 268435456
  /-- After how many seconds a table is stale. -/
  refreshInterval : Option Nat := none
  /-- How many levels of directories may carry keys. -/
  partitionMaxDepth : Nat := 8
  /-- Whether fingerprints hold a digest of the content. -/
  hashContents : Bool := false
  artifactDir : Option Path := none
  batchSize : Nat := 8192
  /-- How many records decide on the types of columns. -/
  inferRecords : Nat := 1000
  /-- How many conversions run at the same time. -/
  parallelism : Nat := 4
  /-- The ids of the converters in use, in order. -/
  converters : Option (List String) := none
deriving DecidableEq, Inhabited

namespace Config

/-- The members of settings, in order. -/
def memberNames : List String :=
  ["engine", "cache_max_bytes", "refresh_interval_secs", "partition_max_depth", "hash_contents",
   "artifact_dir", "batch_size", "schema_infer_max_records", "conversion_parallelism", "converters"]

/-- An encoding by its exact name, alone or as the only member of an object that says nothing more. -/
def engineValue? : Json.Value → Option Engine
  | .text "parquet" | .object [("parquet", .null)] => some .parquet
  | .text "arrow" | .object [("arrow", .null)] => some .arrow
  | _ => none

/-- The settings that a JSON value stands for. -/
def ofValue? (v : Json.Value) : Option Config := do
  let [engine, cache, refresh, depth, hash, dir, batch, infer, parallel, converters] ←
    v.members? memberNames | none
  let standard : Config := {}
  return {
    engine := ← Json.withDefault engineValue? standard.engine engine
    cacheMaxBytes := ← Json.withDefault Json.Value.natural? standard.cacheMaxBytes cache
    refreshInterval := ← Json.withDefault (Json.Value.optional? Json.Value.natural?) none refresh
    partitionMaxDepth := ← Json.withDefault Json.Value.natural? standard.partitionMaxDepth depth
    hashContents := ← Json.withDefault Json.Value.bool? standard.hashContents hash
    artifactDir := (← Json.withDefault (Json.Value.optional? Json.Value.text?) none dir).map Path.mk
    batchSize := ← Json.withDefault Json.Value.natural? standard.batchSize batch
    inferRecords := ← Json.withDefault Json.Value.natural? standard.inferRecords infer
    parallelism := ← Json.withDefault Json.Value.natural? standard.parallelism parallel
    converters := ← Json.withDefault
      (Json.Value.optional? fun v => do (← v.items?).mapM Json.Value.text?) none converters }

/-- The settings that a JSON text stands for. -/
def parse? (text : String) : Option Config := do ofValue? (← Json.parse? text.length text)

/-- A value that may be absent, as a JSON value. -/
def optionalValue {α : Type} (f : α → Json.Value) : Option α → Json.Value
  | some a => f a
  | none => .null

/-- Settings as a JSON value. -/
def toValue (c : Config) : Json.Value :=
  let natural (n : Nat) : Json.Value := .number (toString n)
  .object [
    ("engine", .text c.engine.name), ("cache_max_bytes", natural c.cacheMaxBytes),
    ("refresh_interval_secs", optionalValue natural c.refreshInterval),
    ("partition_max_depth", natural c.partitionMaxDepth), ("hash_contents", .bool c.hashContents),
    ("artifact_dir", optionalValue (fun p => .text p.text) c.artifactDir),
    ("batch_size", natural c.batchSize), ("schema_infer_max_records", natural c.inferRecords),
    ("conversion_parallelism", natural c.parallelism),
    ("converters", optionalValue (fun ids => .array (ids.map .text)) c.converters)]

/-- The directory of artifacts, given that of the ledger. -/
def artifactDirFor (c : Config) (ledgerDir : Path) : Path :=
  c.artifactDir.getD (ledgerDir.join ⟨".filetable/artifacts"⟩)

end Config

/-- What decoding depends on beside the source. -/
structure ConvertOptions where
  engine : Engine
  batchSize : Nat
  inferRecords : Nat
deriving DecidableEq, Inhabited

/-- The options that settings stand for: no count is below one. -/
def Config.options (c : Config) : ConvertOptions :=
  { engine := c.engine, batchSize := max c.batchSize 1, inferRecords := max c.inferRecords 1 }

end SourceTables

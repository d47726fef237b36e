import SourceTables.Ledger.Store
import SourceTables.Merge
import SourceTables.Partition.Layout

/-!
# `SourceTables.Snapshot`: what a table is at a time

A snapshot holds the partitions of a table with their artifacts, the conversions these come from, and
the schema. The columns read from artifacts come first and the partition keys after them; a column
named like a key is left out.
-/

set_option autoImplicit false

namespace SourceTables

/-- A partition with the artifacts that hold its rows. -/
structure PartitionEntry where
  partition : Partition
  artifacts : List ArtifactRef

/-- A table at a time. -/
structure Snapshot where
  keys : List PartitionKey
  partitions : List PartitionEntry
  /-- The conversion of each source. -/
  conversions : LedgerMap
  /-- The columns of the table. -/
  schema : Schema
  /-- The columns that are read from artifacts. -/
  dataSchema : Schema
  /-- In nanoseconds since 1970-01-01; zero before the first refresh. -/
  builtAt : Nat

namespace Snapshot

/-- The snapshot of a table that was never refreshed. -/
def empty : Snapshot := ⟨[], [], Keyed.empty, [], [], 0⟩

instance : Inhabited Snapshot := ⟨empty⟩

/-- The columns that no key displaces. -/
def dataColumns (keys : List PartitionKey) (columns : Schema) : Schema :=
  columns.filter (fun f => !keys.any (fun k => k.name == f.name))

/-- The columns of keys. -/
def keyColumns (keys : List PartitionKey) : Schema :=
  keys.map fun k => ⟨k.name, k.type.dataType, true⟩

/-- A snapshot of its parts. -/
def build (keys : List PartitionKey) (partitions : List PartitionEntry) (conversions : LedgerMap)
    (columns : Schema) (now : Nat) : Snapshot :=
  let data := dataColumns keys columns
  { keys, partitions, conversions, dataSchema := data, schema := data ++ keyColumns keys,
    builtAt := now }

/-- All artifacts, partition by partition. -/
def artifacts (s : Snapshot) : List ArtifactRef := s.partitions.flatMap PartitionEntry.artifacts

/-- Whether two partitions with artifacts agree. -/
def sameEntry (a b : PartitionEntry) : Bool :=
  a.partition.same b.partition && Record.sameArtifacts a.artifacts b.artifacts

/-- Whether two lists of partitions agree. -/
def sameEntries (as bs : List PartitionEntry) : Bool :=
  as.length == bs.length && (as.zip bs).all (fun (a, b) => sameEntry a b)

/-- Whether two sets of conversions agree. -/
def sameConversions (a b : LedgerMap) : Bool :=
  a.keys == b.keys && (a.values.zip b.values).all (fun (x, y) => x.record.same y.record)

/-- Whether two snapshots show the same, whenever they were built. -/
def sameContent (a b : Snapshot) : Bool :=
  a.keys == b.keys && sameEntries a.partitions b.partitions
    && sameConversions a.conversions b.conversions && a.schema == b.schema

end Snapshot

end SourceTables

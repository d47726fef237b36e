import SourceTables.LiveTable
import SourceTables.Query.Expr

/-!
# `SourceTables.Query.Plan`: scans on behalf of a query

A query is planned against a snapshot of a table. When the scan is set up the table is refreshed if
that is due; the newer snapshot is read only if its schema is the planned one. Filters on keys rule
partitions out, as far as the planned keys allow it.

Main statement: `schema_snapshotFor` (what is read has the planned schema).
-/

set_option autoImplicit false

namespace SourceTables

/-- A scan of one snapshot, ready to run. -/
structure ScanPlan where
  table : String
  snapshot : Snapshot
  predicate : Predicate
  projection : Option (List Nat)
  limit : Option Nat
  /-- The columns that come out. -/
  schema : Schema

namespace Snapshot

/-- Whether a name is a key's. -/
def isKey (s : Snapshot) (name : String) : Bool := s.keys.any (fun key => key.name == name)

/-- Whether a filter rules partitions out. -/
def prunesBy (s : Snapshot) (filter : Expr) : Bool := (filter.predicate? s.isKey).isSome

/-- The columns at some positions, or all of them. -/
def projected (s : Snapshot) : Option (List Nat) → Except ColumnError Schema
  | none => .ok s.schema
  | some positions => s.schema.project positions

end Snapshot

namespace LiveTable

/-- What a plan reads: the current snapshot if it has the planned schema. -/
def snapshotFor (t : LiveTable) (planned : Snapshot) : Snapshot :=
  if t.current.schema = planned.schema then t.current else planned

/-- What a plan reads has the planned schema. -/
theorem schema_snapshotFor (t : LiveTable) (planned : Snapshot) :
    (t.snapshotFor planned).schema = planned.schema := by
  unfold snapshotFor
  split <;> simp_all

/-- The scan of a table for a query that was planned against a snapshot. -/
def plan (t : LiveTable) (planned : Snapshot) (filters : List Expr)
    (projection : Option (List Nat)) (limit : Option Nat) : Except ColumnError ScanPlan := do
  let snapshot := t.snapshotFor planned
  return {
    table := t.name
    snapshot
    predicate := Expr.predicateOf planned.isKey filters
    projection
    limit
    schema := ← snapshot.projected projection }

end LiveTable

namespace ScanPlan

/-- How many partitions are read. -/
def scanned (p : ScanPlan) : Nat := (p.snapshot.kept p.predicate).length

/-- The line that describes a plan. -/
def display (p : ScanPlan) : String :=
  "FileScanExec: table=" ++ p.table ++ ", partitions=" ++ toString p.scanned ++ "/"
    ++ toString p.snapshot.partitions.length

/-- The start of the scan. -/
def start (p : ScanPlan) : Scan := p.snapshot.scan p.predicate p.projection p.limit

end ScanPlan

end SourceTables

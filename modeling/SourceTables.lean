import SourceTables.Text.Blank
import SourceTables.Text.Character
import SourceTables.Text.Utf8
import SourceTables.Number.Decimal
import SourceTables.Number.Text
import SourceTables.Digest
import SourceTables.Path
import SourceTables.Keyed
import SourceTables.Grid
import SourceTables.Files.Walk
import SourceTables.Partition.Predicate
import SourceTables.Json.Parser
import SourceTables.Json.Printer
import SourceTables.LogLevel
import SourceTables.Artifact.Name
import SourceTables.Flight.Callers
import SourceTables.BatchCache
import SourceTables.Snapshot
import SourceTables.Main
import SourceTables.Delimited.Decode
import SourceTables.Markdown
import SourceTables.Html.Table
import SourceTables.Office.Workbook
import SourceTables.Office.Document
import SourceTables.Format.Decode
import SourceTables.Proofs.Query.Pruning
import SourceTables.Proofs.Query.Extended
import SourceTables.Proofs.Query.Planned
import SourceTables.Passes
import SourceTables.Proofs.Align
import SourceTables.Proofs.Artifact.Content
import SourceTables.Proofs.Artifact.Distinct
import SourceTables.Proofs.Artifact.Entry
import SourceTables.Proofs.Artifact.Name
import SourceTables.BatchCache.Metered
import SourceTables.Proofs.BatchCache.History
import SourceTables.Proofs.BatchCache.Metered
import SourceTables.Proofs.Cast
import SourceTables.Proofs.Convert
import SourceTables.Proofs.Convert.Names
import SourceTables.Proofs.Fingerprint
import SourceTables.Proofs.Format.Columns
import SourceTables.Proofs.Files.Outside
import SourceTables.Proofs.Flight.Runs
import SourceTables.Proofs.Flight.Waiters
import SourceTables.Proofs.Grid
import SourceTables.Proofs.Html.Entity
import SourceTables.Proofs.Json.Parsing
import SourceTables.Proofs.Json.Shape
import SourceTables.Proofs.Ledger.Document
import SourceTables.Proofs.Ledger.Calls
import SourceTables.Proofs.Ledger.Filed
import SourceTables.Proofs.Ledger.Exact
import SourceTables.Proofs.Ledger.Overlap
import SourceTables.Proofs.LiveTable.Assemble
import SourceTables.Proofs.LiveTable.Captured
import SourceTables.Proofs.LiveTable.Columns
import SourceTables.Proofs.LiveTable.Rows
import SourceTables.Proofs.LiveTable.Unchanged
import SourceTables.Proofs.Markdown.Document
import SourceTables.Proofs.Merge
import SourceTables.Proofs.Merge.Bound
import SourceTables.Proofs.Office.Cell
import SourceTables.Proofs.Office.Workbook
import SourceTables.Proofs.Passes.Moves
import SourceTables.Proofs.Passes.Sources
import SourceTables.Proofs.Partition.Chain
import SourceTables.Proofs.Partition.Consistent
import SourceTables.Proofs.Partition.Cover
import SourceTables.Proofs.Partition.Listing
import SourceTables.Proofs.Partition.Gather
import SourceTables.Proofs.Partition.Segment
import SourceTables.Proofs.Partition.Typing
import SourceTables.Proofs.Partition.Relisted
import SourceTables.Proofs.Path.Parts
import SourceTables.Proofs.Path.Below
import SourceTables.Proofs.Plain
import SourceTables.Proofs.Scan
import SourceTables.Proofs.Scan.Limited
import SourceTables.Proofs.Scan.Plain
import SourceTables.Proofs.SharedTable.Atomic
import SourceTables.Proofs.SharedTable.Moves
import SourceTables.Proofs.SharedTable.Recent
import SourceTables.Proofs.Text.Identifier
import SourceTables.Proofs.Workspace.Batch
import SourceTables.Proofs.Workspace.Commute
import SourceTables.Proofs.Workspace.Held
import SourceTables.Proofs.Workspace.Sharing
import SourceTables.Proofs.Catalog.Accounted
import SourceTables.Proofs.Catalog.Clear
import SourceTables.Proofs.Catalog.Discovery

import SourceTables.TextType
import SourceTables.Text.Name

/-!
# `SourceTables.Grid`: tables from rows of texts

Worksheets, document and slide tables, Markdown and HTML tables all end up as a grid of texts. Cells
are trimmed and blank rows dropped; the first row left is the header. A column has the first of
`Int64`, `Float64`, `Boolean` and `Utf8` under which all of its non-empty cells read, and `Utf8` if
it has none. Empty cells are null.
-/

set_option autoImplicit false

namespace SourceTables

namespace Grid

/-- The trimmed rows of a grid that are not blank. -/
def visibleRows (grid : List (List String)) : List (List String) :=
  (grid.map (fun row => row.map Text.trim)).filter (fun row => row.any (fun s => !s.isEmpty))

/-- The types of `width` columns. -/
def columnTypes : Nat → List (List String) → List TextType
  | 0, _ => []
  | width + 1, rows =>
    TextType.infer ((rows.filterMap List.head?).filter (fun s => !s.isEmpty))
      :: columnTypes width (rows.map List.tail)

/-- A row of cells under column types; missing cells are null. -/
def typedRow : List TextType → List String → Row
  | [], _ => []
  | _ :: types, [] => .null :: typedRow types []
  | type :: types, s :: rest => type.cell s :: typedRow types rest

/-- The table of a grid; none if the grid is blank. -/
def toTable? (name : Option String) (grid : List (List String)) (batchSize : Nat) : Option Table :=
  match visibleRows grid with
  | [] => none
  | header :: data =>
    -- A table is as wide as its longest row; columns past the header get names of their own.
    let width := (data.map List.length).foldl max header.length
    let types := columnTypes width data
    some {
      name
      schema := (Text.headings header width).zipWith (fun n type => ⟨n, type.dataType, true⟩) types
      batches := (chunks batchSize data).map (fun rows => rows.map (typedRow types)) }

end Grid

end SourceTables

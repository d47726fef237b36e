import SourceTables.Grid
import SourceTables.Text.Line

/-!
# `SourceTables.Markdown`: pipe tables

A table is a header row, a row of dashes and colons, and the lines after it that hold a pipe. Cells
stand between pipes; a pipe at either end of a row is a border, and `\|` is a pipe in a cell. Lines
between two fences are no tables.
-/

set_option autoImplicit false

namespace SourceTables.Markdown

/-- Adds a character to the first of some cells. -/
def prependTo (c : Char) : List (List Char) → List (List Char)
  | [] => [[c]]
  | cell :: cells => (c :: cell) :: cells

/-- The texts between the pipes of a row. -/
def cut : List Char → List (List Char)
  | [] => [[]]
  | '\\' :: '|' :: rest => prependTo '|' (cut rest)
  | c :: rest => if c = '|' then [] :: cut rest else prependTo c (cut rest)

/-- A row without the border at its start. -/
def dropLeftBorder : List Char → List Char
  | '|' :: rest => rest
  | cs => cs

/-- A row without the border at its end. -/
def dropRightBorder (cs : List Char) : List Char :=
  if cs.getLast? = some '|' then cs.dropLast else cs

/-- The cells of a row. -/
def cells (line : List Char) : List (List Char) :=
  (cut (dropRightBorder (dropLeftBorder (Text.trimList line)))).map Text.trimList

/-- Whether a row of cells stands between a header and its table. -/
def isDelimiterRow (line : List Char) : Bool :=
  line.contains '-' && (cells line).all fun cell =>
    !cell.isEmpty && cell.all fun c => c = '-' || c = ':' || c = ' '

/-- Whether a line can belong to a table. -/
def isTableLine (line : List Char) : Bool := line.contains '|' && !line.all Text.isBlank

/-- Whether a line opens or closes a fenced block. -/
def isFence (line : List Char) : Bool :=
  let start := (Text.trimLeft line).take 3
  start = ['`', '`', '`'] || start = ['~', '~', '~']

/-- The rows of a table's lines. -/
def rows (lines : List (List Char)) : List (List String) :=
  lines.map fun line => (cells line).map String.ofList

/-- The tables in lines, each with its header as the first row. `fenced` says whether a fence is
open. -/
def tablesIn (fenced : Bool) (lines : List (List Char)) : List (List (List String)) :=
  match lines with
  | [] => []
  | line :: rest =>
    -- A fence closes any other, whichever of the two marks they have.
    if isFence line then tablesIn (!fenced) rest
    else if fenced then tablesIn true rest
    else match rest with
      | [] => []
      | next :: body =>
        if isTableLine line && isDelimiterRow next then
          rows (line :: body.takeWhile isTableLine) :: tablesIn false (body.dropWhile isTableLine)
        else tablesIn false (next :: body)
termination_by lines.length
decreasing_by
  all_goals simp
  all_goals have := (List.dropWhile_sublist (l := body) isTableLine).length_le
  all_goals omega

/-- The tables of a text. -/
def grids (text : String) : List (List (List String)) := tablesIn false (Text.lines text.toList)

end SourceTables.Markdown

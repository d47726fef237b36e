import SourceTables.Number.Integer
import SourceTables.Office.Package
import SourceTables.Text.Blank
import SourceTables.Xml.Tree

/-!
# `SourceTables.Office.Workbook`: the worksheets of a spreadsheet

A workbook lists its sheets; each refers to its part by an id that the workbook's relationships
resolve, or has the part of its position. Sheets whose part is missing are left out.

A cell stands in the column that its reference names or, without one, at its place in its row. Columns
are `A` to `Z`, then `AA` and so on, up to `XFD`. A row reaches to its last cell, and the last of two
cells in one column counts.
-/

set_option autoImplicit false

namespace SourceTables.Office

open Xml (Element)

/-! ### The cells of a worksheet -/

/-- How many columns a worksheet has. -/
def columnLimit : Nat := 16384

/-- The greatest number that is told apart; greater ones count as it. -/
def numberLimit : Nat := UInt64.size - 1

/-- The value of letters as digits of base 26 from one to twenty-six, after those of `start`. -/
def letterValue (start : Nat) (letters : List Char) : Nat :=
  letters.foldl (fun n c =>
    min (min (n * 26) numberLimit + (c.toUpper.toNat - 'A'.toNat + 1)) numberLimit) start

/-- The column of a reference, counted from zero: only the letters at its start count. -/
def columnIndex? (reference : String) : Option Nat :=
  match reference.toList.takeWhile Char.isAlpha with
  | [] => none
  | letters => some (letterValue 0 letters - 1)

/-- The text of a cell. `shared` are the texts that cells refer to by number. -/
def cellValue (shared : Array String) (cell : Element) : String :=
  let raw := (((cell.named "v").head?).bind Element.text?).getD ""
  match cell.value? "t" with
  | some "s" => ((Number.uint64? (Text.trim raw)).bind (shared[·]?)).getD ""
  | some "inlineStr" => (((cell.named "is").head?).map (fun e => e.textOf "t")).getD ""
  | some "b" =>
    let text := Text.trim raw
    if text = "1" then "true" else if text = "0" then "false" else ""
  | some "e" => ""
  | _ => raw

/-- A cell that lies past the last column, by its reference. -/
structure CellTooFar where
  reference : Option String

/-- The text of the error. -/
def CellTooFar.message (e : CellTooFar) : String :=
  "cell " ++ e.reference.getD "without a reference" ++ " lies past the last worksheet column"

/-- Writes a text into a row that may have to grow. -/
def place (row : Array String) (column : Nat) (text : String) : Array String :=
  -- Cells that are left out between two others are empty.
  let row := row ++ Array.replicate (column + 1 - row.size) ""
  row.setIfInBounds column text

/-- The texts of a row from its cell number `position` on. -/
def rowFrom (shared : Array String) (row : Array String) :
    (position : Nat) → List Element → Except CellTooFar (Array String)
  | _, [] => .ok row
  | position, cell :: rest =>
    let reference := cell.value? "r"
    -- A cell without a reference counts its place in the row, not the column after the last one.
    let column := (reference.bind columnIndex?).getD position
    if columnLimit ≤ column then .error ⟨reference⟩
    else rowFrom shared (place row column (cellValue shared cell)) (position + 1) rest

/-- The rows of a worksheet as texts. -/
def sheetGrid (shared : Array String) (sheet : Element) : Except CellTooFar (List (List String)) :=
  match (sheet.named "sheetData").head? with
  | none => .ok []
  | some data =>
    (data.named "row").mapM fun row => (rowFrom shared #[] 0 (row.named "c")).map Array.toList

/-! ### The sheets of a workbook -/

/-- The part of a relationship's target. -/
def targetPart (target : String) : String :=
  match target.toList with
  | '/' :: rest => String.ofList rest
  | _ => "xl/" ++ target

/-- The texts that cells share. -/
def sharedTexts (p : Package) : Except Error (Array String) := do
  match ← p.root? "xl/sharedStrings.xml" with
  | none => return #[]
  | some root => return ((root.named "si").map fun e => e.textOf "t").toArray

/-- The parts that relationships lead to, by id; the last one of an id counts. -/
def relationships (p : Package) : Except Error (List (String × String)) := do
  match ← p.root? "xl/_rels/workbook.xml.rels" with
  | none => return []
  | some root => return ((root.named "Relationship").filterMap fun e => do
      return (← e.value? "Id", targetPart (← e.value? "Target"))).reverse

/-- A sheet: its name and its part. -/
structure SheetRef where
  name : String
  part : String

/-- The sheets of a workbook, in order. -/
def sheets (p : Package) : Except Error (List SheetRef) := do
  let targets ← relationships p
  let workbook ← p.requiredRoot "xl/workbook.xml"
  match (workbook.named "sheets").head? with
  | none => throw (p.failure "workbook has no sheets")
  | some list => return (list.named "sheet").mapIdx fun n sheet =>
      let position := toString (n + 1)
      -- Without a relationship the position in the list stands for the part.
      let target := (sheet.spacedValue? "id").bind fun id =>
        (targets.find? (fun t => t.1 == id)).map Prod.snd
      { name := (sheet.value? "name").getD ("sheet" ++ position)
        part := target.getD ("xl/worksheets/sheet" ++ position ++ ".xml") }

/-- The rows of a sheet; none if its part is missing. -/
def sheetRows? (p : Package) (shared : Array String) (sheet : SheetRef) :
    Except Error (Option (List (List String))) := do
  match ← p.root? sheet.part with
  | none => return none
  | some root => match sheetGrid shared root with
    | .ok grid => return some grid
    | .error e => throw (p.failure e.message)

/-- The sheets of a spreadsheet: names and rows. -/
def workbookGrids (p : Package) : Except Error (List (String × List (List String))) := do
  let shared ← sharedTexts p
  let found ← (← sheets p).mapM fun sheet => do
    return (← sheetRows? p shared sheet).map fun grid => (sheet.name, grid)
  return found.filterMap id

end SourceTables.Office

import SourceTables.Office.Package
import SourceTables.Text.Blank
import SourceTables.Xml.Tree

/-!
# `SourceTables.Office.Document`: the tables of documents and presentations

A text document has all its tables in one part. A presentation has a part for each slide, in the order
of the slides' numbers.

A table is a `tbl` element that lies in no other. Its rows are the `tr` elements in it, their cells the
`tc` elements in them. The text of a cell is that of its paragraphs, blank ones left out, with a space
between any two; a cell without such paragraphs has the text of all runs in it.
-/

set_option autoImplicit false

namespace SourceTables.Office

open Xml (Element)

/-! ### Tables -/

/-- Whether an element is a table. -/
def isTable (e : Element) : Bool := e.name == "tbl"

/-- The tables of a document: those that lie in no other, in the order of their starts. -/
def tables (root : Element) : List Element :=
  (root.places.filter fun p => isTable p.element && !p.above.any isTable).map Xml.Place.element

/-- The text of a cell. -/
def cellText (cell : Element) : String :=
  let paragraphs := (cell.all.filter (fun e => e.name == "p")).map (fun p => p.textOf "t")
  match paragraphs.filter (fun text => !Text.isBlankText text) with
  | [] => cell.textOf "t"
  | texts => " ".intercalate texts

/-- The rows of a table as texts. -/
def grid (table : Element) : List (List String) :=
  (table.named "tr").map fun row => (row.named "tc").map cellText

/-- The tables of a document, with names that start with `leader`. -/
def namedGrids (leader : String) (root : Element) : List (String × List (List String)) :=
  (tables root).mapIdx fun n table => (leader ++ "table" ++ toString (n + 1), grid table)

/-! ### Documents and presentations -/

/-- The tables of a text document. -/
def documentGrids (p : Package) : Except Error (List (String × List (List String))) := do
  return namedGrids "" (← p.requiredRoot "word/document.xml")

/-- The number of the slide that a part holds. -/
def slideNumber? (part : String) : Option Nat := do
  let leader := "ppt/slides/slide".toList
  let trailer := ".xml".toList
  let cs := part.toList
  if !leader.isPrefixOf cs then none
  let rest := cs.drop leader.length
  if !trailer.isSuffixOf rest then none
  Number.uint64? (String.ofList (rest.take (rest.length - trailer.length)))

/-- The slides of a presentation, by number and then by the name of the part. -/
def slides (p : Package) : List (Nat × String) :=
  (p.archive.names.filterMap fun part => (slideNumber? part).map fun n => (n, part)).mergeSort
    fun a b => a.1 < b.1 || (a.1 = b.1 && a.2 ≤ b.2)

/-- The tables of a presentation. -/
def presentationGrids (p : Package) : Except Error (List (String × List (List String))) := do
  let found ← (slides p).mapM fun slide => do
    return namedGrids ("slide" ++ toString slide.1 ++ "_") (← p.requiredRoot slide.2)
  return found.flatten

end SourceTables.Office

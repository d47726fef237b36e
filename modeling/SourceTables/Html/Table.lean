import SourceTables.Html.Entity
import SourceTables.Html.Token

/-!
# `SourceTables.Html.Table`: the tree and the tables of a page

A closing tag closes the innermost open element if it bears its name and is ignored otherwise.
Elements that are open at the end of the page end there.

A page has one table for each `table` element that lies in no other. Its rows are the `tr` elements
right in it or in one of its sections, and the cells of a row are its `td` and `th` elements. The
text of a cell is all text in it, that of inner tables included, with one space for each run of
blanks.
-/

set_option autoImplicit false

namespace SourceTables.Html

/-! ### The tree -/

/-- A part of a page. -/
inductive Node where
  | text (content : List Char)
  | element (name : List Char) (id : Option (List Char)) (children : List Node)

instance : Inhabited Node := ⟨.text []⟩

/-- An element that has not been closed, with its children so far in reverse. -/
structure OpenElement where
  name : List Char
  id : Option (List Char)
  children : List Node

/-- What has been read of a page: the elements that are open, innermost first, and what stands on the
outermost level, in reverse. -/
structure Reading where
  stack : List OpenElement
  top : List Node

/-- Adds a node to the innermost open element. -/
def Reading.add (r : Reading) (node : Node) : Reading :=
  match r.stack with
  | [] => { r with top := node :: r.top }
  | e :: rest => { r with stack := { e with children := node :: e.children } :: rest }

/-- Closes the innermost open element. -/
def Reading.close (r : Reading) : Reading :=
  match r.stack with
  | [] => r
  | e :: rest => { r with stack := rest }.add (.element e.name e.id e.children.reverse)

/-- One more token. -/
def Reading.step (r : Reading) : Token → Reading
  | .text content => r.add (.text content)
  | .opening name id leaf =>
    if leaf then r.add (.element name id [])
    else { r with stack := ⟨name, id, []⟩ :: r.stack }
  | .closing name =>
    match r.stack with
    | [] => r
    -- Letter case counts here: only the very same name closes an element.
    | e :: _ => if e.name = name then r.close else r

/-- Closes all open elements. -/
def closeAll : (stack : List OpenElement) → (top : List Node) → List Node
  | [], top => top.reverse
  | [e], top => (Node.element e.name e.id e.children.reverse :: top).reverse
  | e :: outer :: rest, top =>
    closeAll ({ outer with children := .element e.name e.id e.children.reverse :: outer.children } :: rest)
      top
termination_by stack => stack.length

/-- The nodes of a page. -/
def parse (page : String) : List Node :=
  let r := (tokens page.toList).foldl Reading.step ⟨[], []⟩
  closeAll r.stack r.top

mutual

/-- All text in a node. -/
def Node.innerText : Node → List Char
  | .text content => content
  | .element _ _ children => innerTexts children
termination_by structural n => n

/-- All text in some nodes. -/
def innerTexts : List Node → List Char
  | [] => []
  | n :: rest => n.innerText ++ innerTexts rest
termination_by structural ns => ns

end

/-! ### The tables -/

/-- Whether an element has a name, letter case not counting. -/
def isNamed (name : List Char) (lower : String) : Bool :=
  String.ofList (name.map Char.toLower) = lower

/-- An element of a page. -/
structure Element where
  name : List Char
  id : Option (List Char)
  children : List Node

/-- Whether an element has a name, letter case not counting. -/
def Element.is (e : Element) (lower : String) : Bool := isNamed e.name lower

/-- The elements among nodes. -/
def elements : List Node → List Element
  | [] => []
  | .text _ :: rest => elements rest
  | .element name id children :: rest => ⟨name, id, children⟩ :: elements rest

mutual

/-- The tables in a node that lie in no other. -/
def Node.outerTables : Node → List Element
  | .text _ => []
  | .element name id children =>
    -- A table is not searched for further ones.
    if isNamed name "table" then [⟨name, id, children⟩] else outerTables children
termination_by structural n => n

/-- The tables in some nodes that lie in no other. -/
def outerTables : List Node → List Element
  | [] => []
  | n :: rest => n.outerTables ++ outerTables rest
termination_by structural ns => ns

end

/-- Whether an element is a section of a table. -/
def Element.isSection (e : Element) : Bool := e.is "thead" || e.is "tbody" || e.is "tfoot"

/-- The rows of a table. -/
def Element.rows (table : Element) : List Element :=
  (elements table.children).flatMap fun child =>
    if child.is "tr" then [child]
    else if child.isSection then (elements child.children).filter (fun row => row.is "tr")
    else []

/-- The text of a cell. -/
def Element.cellText (cell : Element) : String :=
  let words := Text.runs Text.isBlank (innerTexts cell.children)
  -- References are resolved after blanks are collapsed, so that a space from a reference stays.
  String.ofList (decode (List.intercalate [' '] words))

/-- The texts of a row's cells. -/
def Element.cellTexts (row : Element) : List String :=
  ((elements row.children).filter (fun cell => cell.is "td" || cell.is "th")).map Element.cellText

/-- The rows of a table as texts. -/
def Element.grid (table : Element) : List (List String) := table.rows.map Element.cellTexts

/-- The name of a table that is number `n` of its page. -/
def Element.tableName (table : Element) (n : Nat) : String :=
  match table.id with
  | some (c :: cs) => String.ofList (c :: cs)
  | some [] | none => "table" ++ toString n

/-- The tables of a page: names and rows. -/
def grids (page : String) : List (String × List (List String)) :=
  (outerTables (parse page)).mapIdx fun n table => (table.tableName (n + 1), table.grid)

end SourceTables.Html

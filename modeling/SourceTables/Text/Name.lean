import SourceTables.Text.Blank
import SourceTables.Text.Split
import Std.Data.HashSet

/-!
# `SourceTables.Text.Name`: names of tables and columns

A table name is made of runs of ASCII letters and digits in lower case, joined by single
underscores, and starts with a letter. `tableName` turns any text into one: the characters of the
text that are no ASCII letters or digits only separate runs. A text without any run is called
`table`, and a name that would start with a digit gets the leader `t_`.

A second name that is already in use is numbered: `numbered` tries `base`, `base_2`, `base_3`, …

Each column is named by the trimmed cell above it in a header row, or `column_N` (counted from 1)
where that cell is blank or missing. A name that an earlier column has already taken is numbered.
-/

set_option autoImplicit false

namespace SourceTables.Text

/-! ### Tables -/

/-- An ASCII letter or digit. -/
def isNameChar (c : Char) : Bool := c.isAlphanum

/-- The runs of ASCII letters and digits of a text, in lower case. -/
def nameRuns (cs : List Char) : List (List Char) :=
  (runs (fun c => !isNameChar c) cs).map (fun run => run.map Char.toLower)

/-- The runs joined by underscores. -/
def joinRuns : List (List Char) → List Char
  | [] => []
  | [run] => run
  | run :: rest => run ++ '_' :: joinRuns rest

/-- The table name that a text stands for. -/
def tableNameList (cs : List Char) : List Char :=
  match joinRuns (nameRuns cs) with
  | [] => ['t', 'a', 'b', 'l', 'e']
  | c :: rest => if c.isDigit then 't' :: '_' :: c :: rest else c :: rest

/-- The table name that a string stands for. -/
def tableName (raw : String) : String := String.ofList (tableNameList raw.toList)

/-- The `n`-th name built on a base: the base itself first, then `base_2`, `base_3`, … -/
def numbered (base : String) : Nat → String
  | 0 => base
  | n + 1 => base ++ "_" ++ toString (n + 2)

/-- The first name built on a base, from the `n`-th on, that is not taken. `fuel` bounds how many
names are tried; one more than there are taken names is enough. -/
def freshFrom (taken : String → Bool) (base : String) : Nat → Nat → String
  | _, 0 => base
  | n, fuel + 1 =>
    if taken (numbered base n) then freshFrom taken base (n + 1) fuel else numbered base n

/-- The first name built on a base that is not among the `count` taken ones. -/
def fresh (taken : String → Bool) (count : Nat) (base : String) : String :=
  freshFrom taken base 0 (count + 1)

/-! ### Columns -/

/-- The name a column asks for: its trimmed header cell, or its position. -/
def headingBase (position : Nat) (cell : Option String) : String :=
  let text := trim (cell.getD "")
  if text.isEmpty then "column_" ++ toString (position + 1) else text

/-- The names of the columns from a position on, given the names already taken. -/
def headingsFrom (taken : Std.HashSet String) : Nat → Nat → List String → List String
  | _, 0, _ => []
  | position, width + 1, cells =>
    let base := headingBase position cells.head?
    let name := fresh taken.contains taken.size base
    name :: headingsFrom (taken.insert name) (position + 1) width cells.tail

/-- The names of `width` columns under a header row. -/
def headings (header : List String) (width : Nat) : List String :=
  headingsFrom ∅ 0 width header

end SourceTables.Text

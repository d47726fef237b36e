import SourceTables.Json.Basic

/-!
# `SourceTables.Json.Printer`: values as texts

Values are printed with one item or member a line, indented by two blanks a level; empty arrays and
objects stand on one line. In texts the quote, the backslash and the control characters are escaped
and all else stands for itself.
-/

set_option autoImplicit false

namespace SourceTables.Json

/-- A hexadecimal digit. -/
def hexChar (n : Nat) : Char := if n < 10 then Char.ofNat (48 + n) else Char.ofNat (87 + n)

/-- A character inside a text in quotes. -/
def escapeChar (c : Char) : List Char :=
  if c = '"' then ['\\', '"']
  else if c = '\\' then ['\\', '\\']
  else if c = '\x08' then ['\\', 'b']
  else if c = '\x0c' then ['\\', 'f']
  else if c = '\n' then ['\\', 'n']
  else if c = '\x0d' then ['\\', 'r']
  else if c = '\t' then ['\\', 't']
  else if c.toNat < 0x20 then
    ['\\', 'u', '0', '0', hexChar (c.toNat / 16), hexChar (c.toNat % 16)]
  else [c]

/-- A text in quotes. -/
def quote (s : String) : List Char := '"' :: (s.toList.flatMap escapeChar ++ ['"'])

/-- The start of a line at a level. -/
def newLine (level : Nat) : List Char := '\n' :: List.replicate (2 * level) ' '

mutual

/-- A value at a level. -/
def Value.print (level : Nat) : Value → List Char
  | .null => ['n', 'u', 'l', 'l']
  | .bool true => ['t', 'r', 'u', 'e']
  | .bool false => ['f', 'a', 'l', 's', 'e']
  | .number t => t.toList
  | .text s => quote s
  | .array [] => ['[', ']']
  | .array (v :: rest) =>
    '[' :: (newLine (level + 1) ++ v.print (level + 1) ++ printItems (level + 1) rest
      ++ newLine level ++ [']'])
  | .object [] => ['\x7b', '\x7d']
  | .object (m :: rest) =>
    '\x7b' :: (newLine (level + 1) ++ printMember (level + 1) m ++ printMembers (level + 1) rest
      ++ newLine level ++ ['\x7d'])
termination_by structural v => v

/-- The items after the first one. -/
def printItems (level : Nat) : List Value → List Char
  | [] => []
  | v :: rest => ',' :: (newLine level ++ v.print level ++ printItems level rest)
termination_by structural vs => vs

/-- The members after the first one. -/
def printMembers (level : Nat) : List (String × Value) → List Char
  | [] => []
  | m :: rest => ',' :: (newLine level ++ printMember level m ++ printMembers level rest)
termination_by structural ms => ms

/-- A member. -/
def printMember (level : Nat) : String × Value → List Char
  | (key, v) => quote key ++ ':' :: ' ' :: v.print level
termination_by structural m => m

end

/-- The text of a value. -/
def Value.pretty (v : Value) : String := String.ofList (v.print 0)

end SourceTables.Json

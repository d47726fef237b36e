/-!
# `SourceTables.Xml.Text`: characters, names and texts with references

Documents may hold all characters but most controls and the two that are none. Names start with a
letter or an underscore and go on with letters, digits and a few marks; a colon has a meaning of its
own and is kept out of both classes. The name of an element or attribute has at most one colon, with
its prefix before it.

A reference stands for a character, by its number or by one of five names. Line breaks are one line
feed each, and blanks in the values of attributes are spaces; characters that come from references
are left as they are.
-/

set_option autoImplicit false

namespace SourceTables.Xml

/-! ### Characters -/

/-- What may stand between the parts of a tag. -/
def isSpace (c : Char) : Bool := c = ' ' || c = '\t' || c = '\n' || c = '\r'

/-- The characters of documents. -/
def isChar (c : Char) : Bool :=
  isSpace c || (0x20 ≤ c.toNat && c.toNat ≠ 0xFFFE && c.toNat ≠ 0xFFFF)

/-- The letters outside ASCII. -/
def letterRanges : List (Nat × Nat) :=
  [(0xC0, 0xD6), (0xD8, 0xF6), (0xF8, 0x2FF), (0x370, 0x37D), (0x37F, 0x1FFF), (0x200C, 0x200D),
   (0x2070, 0x218F), (0x2C00, 0x2FEF), (0x3001, 0xD7FF), (0xF900, 0xFDCF), (0xFDF0, 0xFFFD),
   (0x10000, 0xEFFFF)]

/-- Whether a character lies in one of some ranges. -/
def inRanges (ranges : List (Nat × Nat)) (c : Char) : Bool :=
  ranges.any (fun r => r.1 ≤ c.toNat && c.toNat ≤ r.2)

/-- The characters that names start with. -/
def isNameStart (c : Char) : Bool := c.isAlpha || c = '_' || inRanges letterRanges c

/-- The characters that names go on with. -/
def isNameChar (c : Char) : Bool :=
  isNameStart c || c.isDigit || c = '-' || c = '.'
    || inRanges [(0xB7, 0xB7), (0x300, 0x36F), (0x203F, 0x2040)] c

/-! ### Names -/

/-- A name with its prefix, which may be empty. -/
structure Name where
  space : List Char
  base : List Char
deriving DecidableEq

/-- Whether a part of a name starts as names do. -/
def startsName : List Char → Bool
  | [] => false
  | c :: _ => isNameStart c

/-- The name that a text starts with, and what follows it. -/
def takeName? (cs : List Char) : Option (Name × List Char) :=
  let first := cs.takeWhile isNameChar
  match cs.dropWhile isNameChar with
  | ':' :: rest =>
    let second := rest.takeWhile isNameChar
    match rest.dropWhile isNameChar with
    | ':' :: _ => none
    | rest =>
      if (first.isEmpty || startsName first) && startsName second then some (⟨first, second⟩, rest)
      else none
  | rest => if startsName first then some (⟨[], first⟩, rest) else none

/-- The simple name that a text starts with, colons included, and what follows it. -/
def takeSimpleName? (cs : List Char) : Option (List Char × List Char) :=
  let within : Char → Bool := fun c => isNameChar c || c = ':'
  match cs with
  | [] => none
  | c :: _ =>
    if isNameStart c || c = ':' then some (cs.takeWhile within, cs.dropWhile within) else none

/-! ### Texts -/

/-- The characters with names. -/
def namedChar? (name : List Char) : Option Char :=
  if name = ['q', 'u', 'o', 't'] then some '"'
  else if name = ['a', 'm', 'p'] then some '&'
  else if name = ['a', 'p', 'o', 's'] then some '\''
  else if name = ['l', 't'] then some '<'
  else if name = ['g', 't'] then some '>'
  else none

/-- The value of a hexadecimal digit. -/
def hexDigit? (c : Char) : Option Nat :=
  if c.isDigit then some (c.toNat - 48)
  else if 'a' ≤ c && c ≤ 'f' then some (c.toNat - 87)
  else if 'A' ≤ c && c ≤ 'F' then some (c.toNat - 55)
  else none

/-- A number in digits of a base, as far as a word of 32 bits holds it. -/
def codePoint? (base : Nat) (digits : List Char) : Option Nat :=
  if digits.isEmpty then none
  else (digits.foldlM (fun n c => (hexDigit? c).map (n * base + ·)) 0).filter (fun n => n < UInt32.size)

/-- The character of a number; numbers of none stand for the replacement character. -/
def charOf? (n : Nat) : Option Char :=
  -- A number of no character is replaced, but a character that documents may not have is refused.
  let c := if n.isValidChar then Char.ofNat n else Char.ofNat 0xFFFD
  if isChar c then some c else none

/-- The character of a reference, and what follows, given what follows an ampersand. -/
def reference? (cs : List Char) : Option (Char × List Char) := do
  let (c, rest) ← match cs with
    | '#' :: 'x' :: rest => do
      let within : Char → Bool := fun c => (hexDigit? c).isSome
      pure (← charOf? (← codePoint? 16 (rest.takeWhile within)), rest.dropWhile within)
    | '#' :: rest => do
      pure (← charOf? (← codePoint? 10 (rest.takeWhile Char.isDigit)), rest.dropWhile Char.isDigit)
    | cs => do
      let (name, rest) ← takeSimpleName? cs
      pure (← namedChar? name, rest)
  match rest with
  | ';' :: rest => some (c, rest)
  | _ => none

/-- A character of a text: as it was written, or from a reference. -/
inductive Unit where
  | written (c : Char)
  | referred (c : Char)

/-- The characters of a text; none if a reference is none. `fuel` is the length of the text. -/
def units? : (fuel : Nat) → List Char → Option (List Unit)
  | _, [] => some []
  | 0, _ => none
  | fuel + 1, c :: rest =>
    if c = '&' then do
      let (c, rest) ← reference? rest
      return .referred c :: (← units? fuel rest)
    else (units? fuel rest).map (.written c :: ·)

/-- Adds a written character to a text in reverse: a carriage return becomes a line feed once it is
known what follows. -/
def pushWritten (back : List Char) (c : Char) (atEnd : Bool) : List Char :=
  match back with
  | '\r' :: before =>
    -- A carriage return at the very end has nothing after it to wait for.
    if atEnd && c = '\r' then '\n' :: '\n' :: before
    else if c = '\n' then '\n' :: before
    else c :: '\n' :: before
  | _ => (if atEnd && c = '\r' then '\n' else c) :: back

/-- The content of a text in reverse. A written character right after a reference is left as it is,
too. -/
def contentFrom (back : List Char) (afterReference : Bool) : List Unit → List Char
  | [] => back
  | .referred c :: rest => contentFrom (c :: back) true rest
  | .written c :: rest =>
    if afterReference then contentFrom (c :: back) false rest
    else contentFrom (pushWritten back c rest.isEmpty) false rest

/-- The content of a text between tags. -/
def content? (cs : List Char) : Option (List Char) :=
  (units? cs.length cs).map fun units => (contentFrom [] false units).reverse

/-- The content of a section of plain characters: there are no references in it. -/
def plainContent (cs : List Char) : List Char :=
  (contentFrom [] false (cs.map .written)).reverse

/-- The value of an attribute, character by character. -/
def valueOf : List Unit → List Char
  | [] => []
  | .referred c :: rest => c :: valueOf rest
  | .written c :: rest =>
    match c, rest with
    -- The line feed that follows becomes the one space for both.
    | '\r', .written '\n' :: _ => valueOf rest
    | _, _ => (if isSpace c then ' ' else c) :: valueOf rest

/-- The value of an attribute. -/
def value? (cs : List Char) : Option (List Char) := (units? cs.length cs).map valueOf

end SourceTables.Xml

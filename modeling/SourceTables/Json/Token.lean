import SourceTables.Json.Basic

/-!
# `SourceTables.Json.Token`: JSON texts as tokens

`tokens?` cuts a text into marks, literals, numbers and texts, blanks left out. A strict reader
insists on the grammar of numbers and refuses control characters inside texts; a loose one takes any
run of number characters for a number and any character inside a text.
-/

set_option autoImplicit false

namespace SourceTables.Json

/-- A token. -/
inductive Token where
  | openBrace
  | closeBrace
  | openBracket
  | closeBracket
  | colon
  | comma
  | null
  | bool (value : Bool)
  | number (text : String)
  | text (value : String)
deriving DecidableEq

/-- Where a reader stands inside a text in quotes. -/
inductive InText where
  /-- Between characters. -/
  | plain
  /-- After a backslash. -/
  | escaped
  /-- In an escape by code unit: how many digits are missing, their value so far, and the first half
  of a pair if there is one. -/
  | unit (missing value : Nat) (high : Option Nat)
  /-- After the first half of a pair. -/
  | half (high : Nat)
  /-- After the first half of a pair and a backslash. -/
  | halfEscaped (high : Nat)
deriving DecidableEq

/-- Where a reader stands. The characters read so far come last one first. -/
inductive Reading where
  | between
  | inText (place : InText) (read : List Char)
  | inNumber (read : List Char)
  /-- In a literal: the characters that have to follow, and what it means. -/
  | inWord (missing : List Char) (token : Token)

/-- The characters that JSON takes for blanks. -/
def isJsonBlank (c : Char) : Bool := c = ' ' || c = '\n' || c = '\t' || c = '\x0d'

/-- The characters that numbers are made of. -/
def isNumberChar (c : Char) : Bool :=
  c.isDigit || c = '-' || c = '+' || c = '.' || c = 'e' || c = 'E'

/-- The value of a hexadecimal digit. -/
def hexDigit? (c : Char) : Option Nat :=
  if c.isDigit then some (c.toNat - 48)
  else if 'a' ≤ c && c ≤ 'f' then some (c.toNat - 87)
  else if 'A' ≤ c && c ≤ 'F' then some (c.toNat - 55)
  else none

/-- The character that a letter after a backslash stands for. -/
def simpleEscape? (c : Char) : Option Char :=
  match c with
  | '"' => some '"'
  | '\\' => some '\\'
  | '/' => some '/'
  | 'b' => some '\x08'
  | 'f' => some '\x0c'
  | 'n' => some '\n'
  | 'r' => some '\x0d'
  | 't' => some '\t'
  | _ => none

/-- What follows a code unit: a character, or the wait for the second half of a pair. -/
def afterUnit? (unit : Nat) (high : Option Nat) (read : List Char) : Option Reading :=
  match high with
  | none =>
    if 0xD800 ≤ unit && unit < 0xDC00 then some (.inText (.half unit) read)
    else if 0xDC00 ≤ unit && unit < 0xE000 then none
    else some (.inText .plain (Char.ofNat unit :: read))
  | some high =>
    if 0xDC00 ≤ unit && unit < 0xE000 then
      some (.inText .plain
        (Char.ofNat (0x10000 + (high - 0xD800) * 0x400 + (unit - 0xDC00)) :: read))
    else none

/-- One character inside a text; at its end the text itself. -/
def stepText? (strict : Bool) (place : InText) (read : List Char) (c : Char) :
    Option (List Token × Reading) :=
  match place with
  | .plain =>
    if c = '"' then some ([.text (String.ofList read.reverse)], .between)
    else if c = '\\' then some ([], .inText .escaped read)
    -- A loose reader takes line breaks inside a text as they are.
    else if strict && c.toNat < 0x20 then none
    else some ([], .inText .plain (c :: read))
  | .escaped =>
    if c = 'u' then some ([], .inText (.unit 4 0 none) read)
    else (simpleEscape? c).map fun d => ([], .inText .plain (d :: read))
  | .unit missing value high =>
    match hexDigit? c with
    | none => none
    | some d =>
      let value := value * 16 + d
      if missing ≤ 1 then (afterUnit? value high read).map fun next => ([], next)
      else some ([], .inText (.unit (missing - 1) value high) read)
  | .half high => if c = '\\' then some ([], .inText (.halfEscaped high) read) else none
  | .halfEscaped high => if c = 'u' then some ([], .inText (.unit 4 0 (some high)) read) else none

/-- Whether a text is a number by the grammar: no leading zeros, digits on both sides of a point,
digits in an exponent. -/
def isNumberText (cs : List Char) : Bool :=
  let unsigned := if cs.head? = some '-' then cs.tail else cs
  let whole := unsigned.takeWhile Char.isDigit
  let rest := unsigned.dropWhile Char.isDigit
  let (fraction, tail) := match rest with
    | '.' :: r => (some (r.takeWhile Char.isDigit), r.dropWhile Char.isDigit)
    | r => (none, r)
  let power := match tail with
    | [] => true
    | e :: r =>
      let digits := match r with
        | '+' :: ds | '-' :: ds => ds
        | ds => ds
      (e = 'e' || e = 'E') && !digits.isEmpty && digits.all Char.isDigit
  !whole.isEmpty && (whole.length = 1 || whole.head? ≠ some '0') && fraction ≠ some [] && power

/-- The token of a finished number. -/
def numberToken? (strict : Bool) (read : List Char) : Option Token :=
  let cs := read.reverse
  if strict && !isNumberText cs then none else some (.number (String.ofList cs))

/-- One character between tokens. -/
def stepBetween? (c : Char) : Option (List Token × Reading) :=
  if isJsonBlank c then some ([], .between)
  else if c = '"' then some ([], .inText .plain [])
  else if c.isDigit || c = '-' then some ([], .inNumber [c])
  else match c with
    | '\x7b' => some ([.openBrace], .between)
    | '\x7d' => some ([.closeBrace], .between)
    | '[' => some ([.openBracket], .between)
    | ']' => some ([.closeBracket], .between)
    | ':' => some ([.colon], .between)
    | ',' => some ([.comma], .between)
    | 'n' => some ([], .inWord ['u', 'l', 'l'] .null)
    | 't' => some ([], .inWord ['r', 'u', 'e'] (.bool true))
    | 'f' => some ([], .inWord ['a', 'l', 's', 'e'] (.bool false))
    | _ => none

/-- One character. -/
def step? (strict : Bool) (reading : Reading) (c : Char) : Option (List Token × Reading) :=
  match reading with
  | .between => stepBetween? c
  | .inText place read => stepText? strict place read c
  | .inNumber read =>
    if isNumberChar c then some ([], .inNumber (c :: read))
    -- The character after a number belongs to what comes next.
    else match numberToken? strict read, stepBetween? c with
      | some token, some (tokens, next) => some (token :: tokens, next)
      | _, _ => none
  | .inWord missing token =>
    match missing with
    | d :: rest =>
      if c = d then (if rest.isEmpty then some ([token], .between) else some ([], .inWord rest token))
      else none
    | [] => none

/-- The tokens of a text from some place in it on. -/
def tokensFrom? (strict : Bool) (reading : Reading) : List Char → Option (List Token)
  | [] => match reading with
    | .between => some []
    | .inNumber read => (numberToken? strict read).map ([·])
    | _ => none
  | c :: rest =>
    match step? strict reading c with
    | none => none
    | some (tokens, next) => (tokensFrom? strict next rest).map (tokens ++ ·)

/-- The tokens of a text. -/
def tokens? (strict : Bool) (s : String) : Option (List Token) :=
  tokensFrom? strict .between s.toList

end SourceTables.Json

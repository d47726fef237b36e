/-!
# `SourceTables.Query.Identifier`: names in queries

A name in a query is made of identifiers between dots. An identifier in quotes stands as it is; a bare
one is made of letters, digits and a few signs, starts with no digit, and is put into lower case. Text
that does not have this form is a name as it stands.
-/

set_option autoImplicit false

namespace SourceTables.Query

/-- Whether a bare identifier can start with a character. Letters beyond ASCII count. -/
def isIdentifierStart (c : Char) : Bool :=
  c.isAlpha || c == '_' || c == '#' || c == '@' || 128 ≤ c.toNat

/-- Whether a bare identifier can go on with a character. -/
def isIdentifierPart (c : Char) : Bool := isIdentifierStart c || c.isDigit || c == '$'

/-- Whether a character stands between identifiers without meaning. -/
def isGap (c : Char) : Bool := c == ' ' || c == '\t' || c == '\n' || c == '\r'

/-- The quotes of identifiers: the double quote and the grave accent. -/
def isIdentifierQuote (c : Char) : Bool := c == '"' || c.toNat == 96

/-- The text up to a closing quote, and what follows; a quote written twice is one. -/
def quotedIdentifier? (quote : Char) : List Char → Option (List Char × List Char)
  | [] => none
  | [c] => if c = quote then some ([], []) else none
  | c :: d :: rest =>
    if c ≠ quote then (quotedIdentifier? quote (d :: rest)).map fun r => (c :: r.1, r.2)
    else if d = quote then (quotedIdentifier? quote rest).map fun r => (quote :: r.1, r.2)
    else some ([], d :: rest)

/-- The identifier that a text starts with, and what follows. -/
def identifier? (cs : List Char) : Option (String × List Char) :=
  match cs.dropWhile isGap with
  | [] => none
  | c :: rest =>
    if isIdentifierQuote c then
      (quotedIdentifier? c rest).map fun r => (String.ofList r.1, r.2)
    else if isIdentifierStart c then
      some ((String.ofList (c :: rest.takeWhile isIdentifierPart)).toLower,
        rest.dropWhile isIdentifierPart)
    else none

/-- The identifiers of a name. `fuel` bounds how many there are. -/
def identifiersUpTo : Nat → List Char → Option (List String)
  | 0, _ => none
  | fuel + 1, cs => do
    let (name, rest) ← identifier? cs
    match rest.dropWhile isGap with
    | [] => return [name]
    | '.' :: rest => return name :: (← identifiersUpTo fuel rest)
    | _ => none

/-- The identifiers of a name, if it is made of such. -/
def identifiers? (text : String) : Option (List String) :=
  identifiersUpTo (text.length + 1) text.toList

/-- The greatest number of identifiers in the name of a column: three qualifiers and its own. -/
def maxIdentifiers : Nat := 4

/-- The column that a name in a query means, without its qualifiers. -/
def columnName (text : String) : String :=
  match identifiers? text with
  | some names => if names.length ≤ maxIdentifiers then names.getLast?.getD text else text
  | none => text

end SourceTables.Query

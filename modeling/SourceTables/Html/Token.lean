import SourceTables.Text.Utf8

/-!
# `SourceTables.Html.Token`: tags and texts

A tolerant reading of a page. A text runs up to the next `<`. What follows that is a closing tag, a
comment, a document type or an opening tag; when it turns out to be none of them, reading goes on as
text from where it stopped.

A name needs something after it: the characters of a name at the very end of a page are text.
-/

set_option autoImplicit false

namespace SourceTables.Html

/-- A piece of a page. -/
inductive Token where
  | text (content : List Char)
  /-- An opening tag; a leaf takes no children. -/
  | opening (name : List Char) (id : Option (List Char)) (leaf : Bool)
  | closing (name : List Char)
deriving DecidableEq

/-- What may stand between the parts of a tag. -/
def isGap (c : Char) : Bool := c = ' ' || c = '\n'

/-- The characters of names. -/
def isNameChar (c : Char) : Bool :=
  c.isAlphanum || c = '_' || c = ':' || c = '+' || c = '/' || c = '-'

/-- The names of elements that never have children. -/
def leafNames : List String :=
  ["area", "base", "br", "col", "embed", "hr", "img", "input", "keygen", "link", "meta", "param",
   "source", "track", "wbr"]

/-- A text without the gaps that it starts with. -/
def dropGaps (cs : List Char) : List Char := cs.dropWhile isGap

/-- The name that a text starts with, which may be empty, and what follows it; nothing if the name
goes on to the end of the page. -/
def takeName? (cs : List Char) : Option (List Char × List Char) :=
  match cs.dropWhile isNameChar with
  | [] => none
  | rest => some (cs.takeWhile isNameChar, rest)

/-- What follows a comment, given what follows its `<!`. The two dashes that open it may close it,
too; dashes that do not close it hide the character after them. -/
def afterComment : List Char → List Char
  | '-' :: '-' :: '>' :: rest => rest
  | '-' :: '-' :: _ :: rest => afterComment rest
  | _ :: rest => afterComment rest
  | [] => []

/-- The bytes that are left of a character whose first byte was read over are no text. -/
def leftover (c : Char) : List Char := List.replicate (c.utf8Size - 1) Text.replacement

/-- What follows a declaration's `<!`, comments apart, and the leftover of a character that was read
over by half. -/
def afterDeclaration (cs : List Char) : List Char × List Char :=
  match takeName? cs with
  | none => ([], cs)
  | some (name, rest) =>
    let rest := dropGaps rest
    if String.ofList (name.map Char.toLower) = "doctype" then
      match takeName? rest with
      | none => ([], rest)
      | some (_, rest) => match dropGaps rest with
        | [] => ([], [])
        | c :: rest => (leftover c, rest)
    else ([], rest)

/-- The value of an attribute, and what follows it; a closing quote is left. -/
def takeValue : List Char → List Char × List Char
  | [] => ([], [])
  | q :: rest =>
    if q = '"' || q = '\'' then (rest.takeWhile (· != q), rest.dropWhile (· != q))
    else
      let stays : Char → Bool := fun c => !(isGap c || c = '/' || c = '>')
      ((q :: rest).takeWhile stays, (q :: rest).dropWhile stays)

/-- An attribute with its value, if it has one, and what follows. -/
def takeAttribute (cs : List Char) : List Char × Option (List Char) × List Char :=
  match takeName? cs with
  | none => ([], none, cs)
  | some (name, rest) => match dropGaps rest with
    | '=' :: rest =>
      let (value, rest) := takeValue (dropGaps rest)
      (name, some value, rest)
    | rest => (name, none, rest)

/-- The value of the last `id` among attributes, and what follows them: nothing, `/` or `>`. One
character after each attribute is read over. `fuel` is no less than the length of the text. -/
def takeAttributes (id : Option (List Char)) : (fuel : Nat) → List Char → Option (List Char) × List Char
  | 0, cs => (id, cs)
  | fuel + 1, cs =>
    match dropGaps cs with
    | [] => (id, [])
    | c :: rest =>
      -- A slash between attributes ends them, even if no `>` follows it.
      if c = '/' || c = '>' then (id, c :: rest)
      else
        let (name, value, rest) := takeAttribute (c :: rest)
        -- A later `id` without a value takes away that of an earlier one.
        let id := if name = ['i', 'd'] then value else id
        match rest with
        | [] => (id, [])
        | c :: rest =>
          -- In a well written page this reads over a closing quote or a gap.
          if c = '/' || c = '>' then takeAttributes id fuel (c :: rest)
          else takeAttributes id fuel rest

/-- The opening tag after a `<`, if there is one, and what follows. `fuel` is no less than the length
of the text. -/
def takeOpening (fuel : Nat) (cs : List Char) : Option Token × List Char :=
  match takeName? cs with
  | none => (none, cs)
  | some (name, rest) =>
    let (id, rest) := takeAttributes none fuel (dropGaps rest)
    let (slash, rest) := match rest with
      | '/' :: rest => (true, rest)
      | rest => (false, rest)
    match rest with
    | '>' :: rest =>
      (some (.opening name id (slash || leafNames.contains (String.ofList name))), rest)
    | rest => (none, rest)

/-- What follows a `<`: a token, if it makes one, and the rest. `fuel` is no less than the length of
the text. -/
def takeTag (fuel : Nat) (cs : List Char) : Option Token × List Char :=
  match dropGaps cs with
  | '/' :: rest =>
    let name := rest.takeWhile (· != '>')
    match rest.dropWhile (· != '>') with
    -- The name of a closing tag is all that stands in it.
    | _ :: after => (some (.closing name), after)
    | [] => (none, [])
  | '!' :: '-' :: '-' :: rest => (none, afterComment ('-' :: '-' :: rest))
  | '!' :: rest =>
    let (left, rest) := afterDeclaration rest
    (if left.isEmpty then none else some (.text left), rest)
  | rest => takeOpening fuel rest

/-- The tokens of a page. `fuel` is more than its length. -/
def tokensUpTo : (fuel : Nat) → List Char → List Token
  | 0, _ => []
  | fuel + 1, cs =>
    -- The rest after a failed tag starts with a text again, maybe an empty one.
    let text := cs.takeWhile (· != '<')
    let before := if text.isEmpty then [] else [Token.text text]
    match cs.dropWhile (· != '<') with
    | [] => before
    | _ :: rest =>
      let (token, rest) := takeTag fuel rest
      before ++ token.toList ++ tokensUpTo fuel rest

/-- The tokens of a page: each but the last uses up a `<`. -/
def tokens (cs : List Char) : List Token := tokensUpTo (cs.length + 1) cs

end SourceTables.Html

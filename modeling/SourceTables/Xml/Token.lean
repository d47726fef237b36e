import SourceTables.Xml.Text

/-!
# `SourceTables.Xml.Token`: the markup of a document

Tags, texts and what lies between them. A document may begin with a mark of the byte order and a
declaration; around its only outermost element there is nothing but comments, instructions and
blanks, and a document type is refused.
-/

set_option autoImplicit false

namespace SourceTables.Xml

/-- A piece of markup. -/
inductive Token where
  /-- The start of an element with its attributes; a closed element has no content. -/
  | start (name : Name) (attributes : List (Name × List Char)) (closed : Bool)
  | stop (name : Name)
  | text (content : List Char)
  /-- A comment or an instruction. -/
  | aside

/-- A text without the blanks that it starts with. -/
def dropSpaces (cs : List Char) : List Char := cs.dropWhile isSpace

/-- What follows an expected start of a text. -/
def after? : List Char → List Char → Option (List Char)
  | [], cs => some cs
  | c :: expected, d :: cs => if c = d then after? expected cs else none
  | _ :: _, [] => none

/-- What stands before a mark, and what follows the mark; all before it has to be characters of
documents. -/
def upTo? (mark : List Char) : List Char → Option (List Char × List Char)
  | [] => none
  | c :: rest =>
    match after? mark (c :: rest) with
    | some rest => some ([], rest)
    | none => if isChar c then (upTo? mark rest).map fun (before, rest) => (c :: before, rest) else none

/-- Whether two dashes follow one another in a text, or one ends it. -/
def hasDashes : List Char → Bool
  | [] => false
  | ['-'] => true
  | '-' :: '-' :: _ => true
  | _ :: rest => hasDashes rest

/-- What follows a comment, given what follows its opening mark. -/
def afterComment? (cs : List Char) : Option (List Char) := do
  let (content, rest) ← upTo? ['-', '-', '>'] cs
  if hasDashes content then none else some rest

/-- What follows an instruction, given what follows its `<?`. -/
def afterInstruction? (cs : List Char) : Option (List Char) := do
  -- A declaration is allowed at the very start only.
  if (after? "xml ".toList cs).isSome then none
  let (_, rest) ← takeSimpleName? cs
  let (_, rest) ← upTo? ['?', '>'] (dropSpaces rest)
  return rest

/-- An attribute, and what follows it. -/
def takeAttribute? (cs : List Char) : Option ((Name × List Char) × List Char) := do
  let (name, rest) ← takeName? cs
  match dropSpaces rest with
  | '=' :: rest => match dropSpaces rest with
    | q :: rest =>
      if q ≠ '"' && q ≠ '\'' then none
      let inside : Char → Bool := fun c => c ≠ q && c ≠ '<'
      let raw := rest.takeWhile inside
      if !raw.all isChar then none
      match rest.dropWhile inside with
      | c :: rest => if c = q then some ((name, raw), rest) else none
      | [] => none
    | [] => none
  | _ => none

/-- The attributes of a tag, whether it is closed, and what follows it. `fuel` is more than the length
of the text. -/
def takeAttributes? : (fuel : Nat) → List Char → Option (List (Name × List Char) × Bool × List Char)
  | 0, _ => none
  | fuel + 1, cs =>
    match dropSpaces cs with
    | '/' :: '>' :: rest => some ([], true, rest)
    | '>' :: rest => some ([], false, rest)
    | rest => do
      -- Attributes are set apart by blanks, also the first from the name.
      if !(cs.head?.map isSpace).getD false then none
      let ((name, raw), rest) ← takeAttribute? rest
      let value ← value? raw
      let (more, closed, rest) ← takeAttributes? fuel rest
      return ((name, value) :: more, closed, rest)

/-- The start of an element, and what follows it, given what follows its `<`. `fuel` is no less than
the length of the text. -/
def takeStart? (fuel : Nat) (cs : List Char) : Option (Token × Bool × List Char) := do
  let (name, rest) ← takeName? cs
  let (attributes, closed, rest) ← takeAttributes? fuel rest
  return (.start name attributes closed, closed, rest)

/-- The end of an element, and what follows it, given what follows its `</`. -/
def takeStop? (cs : List Char) : Option (Token × List Char) := do
  let (name, rest) ← takeName? cs
  match dropSpaces rest with
  | '>' :: rest => some (.stop name, rest)
  | _ => none

/-- Whether a text holds the end mark of a plain section. -/
def hasSectionEnd : List Char → Bool
  | [] => false
  | c :: rest => (after? [']', ']', '>'] (c :: rest)).isSome || hasSectionEnd rest

/-- The text up to the next `<`, and what follows. -/
def takeText? (cs : List Char) : Option (List Token × List Char) := do
  let raw := cs.takeWhile (· != '<')
  -- The end mark of a plain section must not stand in a text, even without its start.
  if !raw.all isChar || hasSectionEnd raw then none
  let content ← content? raw
  return (if content.isEmpty then [] else [.text content], cs.dropWhile (· != '<'))

/-- A plain section, and what follows it, given what follows its opening mark. -/
def takeSection? (cs : List Char) : Option (List Token × List Char) := do
  let (raw, rest) ← upTo? [']', ']', '>'] cs
  return ([.text (plainContent raw)], rest)

/-- What follows comments, instructions and blanks. `fuel` is the length of the text. -/
def afterAsides? : (fuel : Nat) → List Char → Option (List Char)
  | 0, _ => none
  | fuel + 1, cs =>
    match dropSpaces cs with
    | '<' :: '!' :: '-' :: '-' :: rest => do afterAsides? fuel (← afterComment? rest)
    | '<' :: '?' :: rest => do afterAsides? fuel (← afterInstruction? rest)
    | rest => some rest

/-- The tokens of a document from within `depth` open elements on. `fuel` is more than the length of
the text. -/
def contentTokens? : (fuel depth : Nat) → List Char → Option (List Token × List Char)
  | _, 0, cs => some ([], cs)
  | 0, _ + 1, _ => none
  | fuel + 1, depth + 1, cs => do
    let (found, depth, rest) ← (match cs with
      | [] => none
      | '<' :: '!' :: '-' :: '-' :: rest => do some ([.aside], depth + 1, ← afterComment? rest)
      | '<' :: '!' :: '[' :: 'C' :: 'D' :: 'A' :: 'T' :: 'A' :: '[' :: rest => do
        let (found, rest) ← takeSection? rest
        some (found, depth + 1, rest)
      | '<' :: '!' :: _ => none
      | '<' :: '?' :: rest => do some ([.aside], depth + 1, ← afterInstruction? rest)
      | '<' :: '/' :: rest => do
        let (token, rest) ← takeStop? rest
        some ([token], depth, rest)
      | '<' :: rest => do
        let (token, closed, rest) ← takeStart? fuel rest
        some ([token], if closed then depth + 1 else depth + 2, rest)
      | cs => do
        let (found, rest) ← takeText? cs
        some (found, depth + 1, rest) : Option (List Token × Nat × List Char))
    let (more, rest) ← contentTokens? fuel depth rest
    return (found ++ more, rest)

/-- What follows a declaration, given what follows its `<?xml `. -/
def afterDeclaration? (cs : List Char) : Option (List Char) := do
  let cs := dropSpaces cs
  let _ ← after? "version".toList cs
  let (_, rest) ← takeAttribute? cs
  let rest ← separated rest
  let rest ← if (after? "encoding".toList rest).isSome then do separated (← takeAttribute? rest).2
    else some rest
  let rest := if (after? "standalone".toList rest).isSome then (takeAttribute? rest).map Prod.snd
    else some rest
  after? ['?', '>'] (dropSpaces (← rest))
where
  /-- What follows the blanks that have to stand between two parts. -/
  separated (cs : List Char) : Option (List Char) :=
    if cs.isEmpty || (cs.head?.map isSpace).getD false || (after? ['?', '>'] cs).isSome then
      some (dropSpaces cs)
    else none

/-- The tokens of a document, from the start of its outermost element to its end. -/
def tokens? (document : List Char) : Option (List Token) := do
  let cs := match document with
    | c :: rest => if c.toNat = 0xFEFF then rest else c :: rest
    | [] => []
  let cs ← match after? "<?xml ".toList cs with
    | some rest => afterDeclaration? rest
    | none => some cs
  match ← afterAsides? (cs.length + 1) cs with
  | '<' :: rest => do
    let (first, closed, rest) ← takeStart? rest.length rest
    let (more, rest) ← contentTokens? (rest.length + 1) (if closed then 0 else 1) rest
    let rest ← afterAsides? (rest.length + 1) rest
    if rest.isEmpty then some (first :: more) else none
  | _ => none

end SourceTables.Xml

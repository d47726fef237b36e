import SourceTables.Json.Token

/-!
# `SourceTables.Json.Parser`: tokens as values

Two grammars. A document is one value with a comma between any two items or members and nothing
after it. Records follow one another without anything between them; inside them commas are read over
wherever an item or a member may stand.

The fuel of a parser is twice the number of its tokens and one more: of two calls one inside the other,
at least one uses up a token.
-/

set_option autoImplicit false

namespace SourceTables.Json

mutual

/-- A value at the start of tokens, and the tokens after it. `depth` bounds how deep arrays and
objects nest. -/
def value? (depth : Nat) : Nat → List Token → Option (Value × List Token)
  | 0, _ => none
  | fuel + 1, tokens => match tokens with
    | .null :: rest => some (.null, rest)
    | .bool b :: rest => some (.bool b, rest)
    | .number t :: rest => some (.number t, rest)
    | .text s :: rest => some (.text s, rest)
    | .openBracket :: rest =>
      -- An empty array or object takes up a level, too.
      if depth = 0 then none
      else match rest with
        | .closeBracket :: rest => some (.array [], rest)
        | rest => (items? (depth - 1) fuel rest).map fun (items, rest) => (.array items, rest)
    | .openBrace :: rest =>
      if depth = 0 then none
      else match rest with
        | .closeBrace :: rest => some (.object [], rest)
        | rest => (members? (depth - 1) fuel rest).map fun (ms, rest) => (.object ms, rest)
    | _ => none

/-- One or more items up to the end of an array. -/
def items? (depth : Nat) : Nat → List Token → Option (List Value × List Token)
  | 0, _ => none
  | fuel + 1, tokens => match value? depth fuel tokens with
    | some (v, .comma :: rest) => (items? depth fuel rest).map fun (vs, rest) => (v :: vs, rest)
    | some (v, .closeBracket :: rest) => some ([v], rest)
    | _ => none

/-- One or more members up to the end of an object. -/
def members? (depth : Nat) : Nat → List Token → Option (List (String × Value) × List Token)
  | 0, _ => none
  | fuel + 1, tokens => match tokens with
    | .text key :: .colon :: rest => match value? depth fuel rest with
      | some (v, .comma :: rest) =>
        (members? depth fuel rest).map fun (ms, rest) => ((key, v) :: ms, rest)
      | some (v, .closeBrace :: rest) => some ([(key, v)], rest)
      | _ => none
    | _ => none

end

/-- The value that a text is; `depth` bounds how deep it nests. -/
def parse? (depth : Nat) (s : String) : Option Value := do
  let tokens ← tokens? true s
  match value? depth (2 * tokens.length + 1) tokens with
  | some (v, []) => some v
  | _ => none

mutual

/-- Whether all numbers in a value are within the range of doubles. -/
def Value.isFinite : Value → Bool
  | .number t => match Number.double? t with
    | some x => !x.isInf
    | none => false
  | .array items => areFinite items
  | .object members => membersFinite members
  | .null | .bool _ | .text _ => true
termination_by structural v => v

/-- Whether all numbers in some values are within the range of doubles. -/
def areFinite : List Value → Bool
  | [] => true
  | v :: rest => v.isFinite && areFinite rest
termination_by structural vs => vs

/-- Whether all numbers in some members are within the range of doubles. -/
def membersFinite : List (String × Value) → Bool
  | [] => true
  | m :: rest => memberFinite m && membersFinite rest
termination_by structural ms => ms

/-- Whether all numbers in a member are within the range of doubles. -/
def memberFinite : String × Value → Bool
  | (_, v) => v.isFinite
termination_by structural m => m

end

/-- How deep a document may nest. -/
def documentDepth : Nat := 127

/-- The document that a text is, objects normalized. -/
def document? (s : String) : Option Value := do
  let v ← parse? documentDepth s
  -- A number that is too great for a double spoils the whole document.
  if v.isFinite then some v.normalize else none

mutual

/-- A value among records. -/
def looseValue? : Nat → List Token → Option (Value × List Token)
  | 0, _ => none
  | fuel + 1, tokens => match tokens with
    | .null :: rest => some (.null, rest)
    | .bool b :: rest => some (.bool b, rest)
    | .number t :: rest => some (.number t, rest)
    | .text s :: rest => some (.text s, rest)
    | .openBracket :: rest => (looseItems? fuel rest).map fun (vs, rest) => (.array vs, rest)
    | .openBrace :: rest => (looseMembers? fuel rest).map fun (ms, rest) => (.object ms, rest)
    | _ => none

/-- Items up to the end of an array, commas read over. -/
def looseItems? : Nat → List Token → Option (List Value × List Token)
  | 0, _ => none
  | fuel + 1, tokens => match tokens with
    | .comma :: rest => looseItems? fuel rest
    | .closeBracket :: rest => some ([], rest)
    | tokens => match looseValue? fuel tokens with
      | some (v, rest) => (looseItems? fuel rest).map fun (vs, rest) => (v :: vs, rest)
      | none => none

/-- Members up to the end of an object, commas read over. -/
def looseMembers? : Nat → List Token → Option (List (String × Value) × List Token)
  | 0, _ => none
  | fuel + 1, tokens => match tokens with
    | .comma :: rest => looseMembers? fuel rest
    | .closeBrace :: rest => some ([], rest)
    | .text key :: .colon :: rest => match looseValue? fuel rest with
      | some (v, rest) => (looseMembers? fuel rest).map fun (ms, rest) => ((key, v) :: ms, rest)
      | none => none
    | _ => none

end

/-- Values one after another. -/
def looseValues? : Nat → List Token → Option (List Value)
  | _, [] => some []
  | 0, _ => none
  | fuel + 1, tokens => match looseValue? (fuel + 1) tokens with
    | some (v, rest) => (looseValues? fuel rest).map (v :: ·)
    | none => none

/-- The records of a text, objects normalized. -/
def records? (s : String) : Option (List Value) := do
  let tokens ← tokens? false s
  let values ← looseValues? (2 * tokens.length + 1) tokens
  return values.map Value.normalize

end SourceTables.Json

import SourceTables.Number.Decimal

/-!
# `SourceTables.Json.Basic`: JSON values

Numbers are kept as they were written, and the members of objects in the order in which they were
written, repeated keys included. `normalize` sorts the members of every object by key and keeps the
last of those that share one.

A record is read from an object, whose unknown members are ignored and whose known members appear at
most once, or from an array with the members in their declared order. Members that an array does not
reach are missing; an array that goes on is refused.
-/

set_option autoImplicit false

namespace SourceTables.Json

/-- A JSON value. -/
inductive Value where
  | null
  | bool (value : Bool)
  | number (text : String)
  | text (value : String)
  | array (items : List Value)
  | object (members : List (String × Value))

instance : Inhabited Value := ⟨.null⟩

/-- Writes a member into members sorted by key; a member with the same key gives way. -/
def placeMember (key : String) (value : Value) : List (String × Value) → List (String × Value)
  | [] => [(key, value)]
  | (k, v) :: rest =>
    if key = k then (key, value) :: rest
    else if key < k then (key, value) :: (k, v) :: rest
    else (k, v) :: placeMember key value rest

/-- Members sorted by key, the last one of each key. -/
def sortMembers (members : List (String × Value)) : List (String × Value) :=
  members.foldl (fun sorted m => placeMember m.1 m.2 sorted) []

mutual

/-- A value whose objects have sorted members and no key twice. -/
def Value.normalize : Value → Value
  | .array items => .array (normalizeItems items)
  | .object members => .object (sortMembers (normalizeMembers members))
  | .null => .null
  | .bool b => .bool b
  | .number t => .number t
  | .text s => .text s
termination_by structural v => v

/-- Normalizes the items of an array. -/
def normalizeItems : List Value → List Value
  | [] => []
  | v :: rest => v.normalize :: normalizeItems rest
termination_by structural vs => vs

/-- Normalizes the members of an object. -/
def normalizeMembers : List (String × Value) → List (String × Value)
  | [] => []
  | m :: rest => normalizeMember m :: normalizeMembers rest
termination_by structural ms => ms

/-- Normalizes one member. -/
def normalizeMember : String × Value → String × Value
  | (key, v) => (key, v.normalize)
termination_by structural m => m

end

/-- The integer that a number is written as: digits, with a minus sign or none. Minus zero is none,
because it is no integer zero. -/
def integerText? (text : String) : Option Int :=
  match text.toList with
  | '+' :: _ => none
  | '-' :: rest => (Number.natOfDigits? rest).bind fun n => if n = 0 then none else some (-Int.ofNat n)
  | cs => (Number.natOfDigits? cs).map Int.ofNat

/-- An unsigned integer of 64 bits. -/
def Value.natural? : Value → Option Nat
  | .number t => match integerText? t with
    | some (.ofNat n) => if n < UInt64.size then some n else none
    | _ => none
  | _ => none

/-- A text. -/
def Value.text? : Value → Option String
  | .text s => some s
  | _ => none

/-- A truth value. -/
def Value.bool? : Value → Option Bool
  | .bool b => some b
  | _ => none

/-- The items of an array. -/
def Value.items? : Value → Option (List Value)
  | .array items => some items
  | _ => none

/-- A value that may be null. -/
def Value.optional? {α : Type} (read : Value → Option α) : Value → Option (Option α)
  | .null => some none
  | v => (read v).map some

/-! ### Values with named members -/

/-- A member of an object that is not repeated: `some none` if there is none, `none` if there are
two. -/
def uniqueMember? (members : List (String × Value)) (name : String) : Option (Option Value) :=
  match members.filter (fun m => m.1 == name) with
  | [] => some none
  | [m] => some (some m.2)
  | _ => none

/-- The members of a record in their declared order. -/
def Value.members? (names : List String) : Value → Option (List (Option Value))
  | .object members => names.mapM (uniqueMember? members)
  | .array items =>
    if items.length ≤ names.length then
      some (items.map some ++ List.replicate (names.length - items.length) none)
    else none
  | _ => none

/-- A member that has to be there. -/
def required {α : Type} (read : Value → Option α) (member : Option Value) : Option α :=
  member.bind read

/-- A member that stands for a default when it is missing. -/
def withDefault {α : Type} (read : Value → Option α) (default : α) : Option Value → Option α
  | none => some default
  | some v => read v

end SourceTables.Json

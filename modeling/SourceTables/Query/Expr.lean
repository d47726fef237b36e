import SourceTables.Partition.Predicate

/-!
# `SourceTables.Query.Expr`: filters on rows and what they say about partitions

A filter is an expression over columns and constants. When all columns that it mentions are partition
keys, and it is built of comparisons of a key with a constant, of lists, ranges and tests for null, it
has a predicate on partitions. The predicate only rules partitions out; the filter itself still has to
be applied to the rows.
-/

set_option autoImplicit false

namespace SourceTables

/-- A constant of a filter. -/
inductive Constant where
  /-- An integer of any width, with a sign or without. -/
  | integer (value : Int)
  | decimal (value : Float)
  | boolean (value : Bool)
  | text (value : String)
  /-- A null, or a value of a type that no key has. -/
  | other

/-- The literal that a constant stands for: integers beyond 64 bits with a sign have none. -/
def Constant.literal? : Constant → Option Literal
  -- A greater integer is left to the filter on rows.
  | .integer value => if value ≤ Int64.maxValue.toInt then some (.integer value) else none
  | .decimal value => some (.decimal value)
  | .boolean value => some (.boolean value)
  | .text value => some (.text value)
  | .other => none

/-- An expression over columns. -/
inductive Expr where
  | column (name : String)
  | constant (value : Constant)
  | compare (op : Comparison) (left right : Expr)
  | and (left right : Expr)
  | or (left right : Expr)
  | not (inner : Expr)
  | isNull (inner : Expr)
  | isNotNull (inner : Expr)
  | inList (inner : Expr) (items : List Expr) (negated : Bool)
  | between (inner low high : Expr) (negated : Bool)
  /-- An operation that says nothing about partitions. -/
  | other (operands : List Expr)

instance : Inhabited Expr := ⟨.other []⟩

namespace Expr

/-- The key that an expression is. -/
def key? (isKey : String → Bool) : Expr → Option String
  | .column name => if isKey name then some name else none
  | _ => none

/-- The literal that an expression is. -/
def literal? : Expr → Option Literal
  | .constant value => value.literal?
  | _ => none

/-- A predicate or, where asked for, its negation. -/
def negateIf (negated : Bool) (p : Predicate) : Predicate := if negated then .not p else p

/-- The predicate of a comparison: a key on one side and a literal on the other. -/
def comparePredicate? (isKey : String → Bool) (op : Comparison) (left right : Expr) :
    Option Predicate :=
  match left.key? isKey, right.key? isKey with
  | some key, none => right.literal?.map (.compare op key)
  | none, some key => left.literal?.map (.compare op.swap key)
  | _, _ => none

/-- The predicate of a range. -/
def betweenPredicate? (isKey : String → Bool) (inner low high : Expr) : Option Predicate := do
  let key ← inner.key? isKey
  let low ← low.literal?
  let high ← high.literal?
  return (Predicate.compare .ge key low).both (.compare .le key high)

/-- The predicate of a list. -/
def listPredicate? (isKey : String → Bool) (inner : Expr) (items : List Expr) : Option Predicate := do
  let key ← inner.key? isKey
  return .oneOf key (← items.mapM literal?)

/-- The predicate on partitions that a filter stands for, if it has one. -/
def predicate? (isKey : String → Bool) : Expr → Option Predicate
  | .compare op left right => comparePredicate? isKey op left right
  | .and left right => do return (← left.predicate? isKey).both (← right.predicate? isKey)
  | .or left right => do return .or (← left.predicate? isKey) (← right.predicate? isKey)
  | .not inner => (inner.predicate? isKey).map .not
  | .isNull inner => (inner.key? isKey).map .isNull
  | .isNotNull inner => (inner.key? isKey).map fun key => .not (.isNull key)
  | .inList inner items negated => (listPredicate? isKey inner items).map (negateIf negated)
  | .between inner low high negated =>
    (betweenPredicate? isKey inner low high).map (negateIf negated)
  | .column _ | .constant _ | .other _ => none

/-- The predicate of all filters that have one. -/
def predicateOf (isKey : String → Bool) (filters : List Expr) : Predicate :=
  (filters.filterMap (predicate? isKey)).foldl .both .always

end Expr

end SourceTables

import SourceTables.Query.Plan

/-!
# `SourceTables.Proofs.Query.Meaning`: what filters say about rows

The filters of a query in the three-valued logic of SQL: a comparison with a null is unknown, and a
row passes a filter only if the filter is true on it. Values that are not compared here, such as
dates, texts with numbers or anything with a NaN, may compare in any way, and so may operations that
are not modelled have any value: a reading of a row fills them in, and what is proved is proved for
all readings.
-/

set_option autoImplicit false

namespace SourceTables

/-- The truth value that a cell is. -/
def Cell.truth? : Cell → Option Bool
  | .bool b => some b
  | _ => none

/-- A truth value as a cell: null where it is unknown. -/
def Cell.ofTruth : Option Bool → Cell
  | some b => .bool b
  | none => .null

@[simp] theorem Cell.truth?_ofTruth (t : Option Bool) : (Cell.ofTruth t).truth? = t := by
  cases t <;> rfl

/-- How two cells compare: numbers as numbers, texts by their bytes, false before true. -/
def Cell.order? : Cell → Cell → Option Ordering
  | .int a, .int b => some (compare a b)
  | .int a, .float b => Literal.compareDoubles (Number.ofInteger a) b
  | .float a, .int b => Literal.compareDoubles a (Number.ofInteger b)
  | .float a, .float b => Literal.compareDoubles a b
  | .bool a, .bool b => some (compare a b)
  | .text a, .text b => some (compare (Text.encodeUtf8 a) (Text.encodeUtf8 b))
  | _, _ => none

/-- A row as a query sees it. -/
structure RowReading where
  /-- The cell of each column. -/
  column : String → Cell
  /-- The value of an operation or a constant that is not modelled. -/
  beyond : Expr → Cell
  /-- The outcome for two values that `Cell.order?` does not compare. -/
  unordered : Comparison → Cell → Cell → Option Bool

namespace RowReading

/-- The outcome of a comparison: unknown if one of the sides is null. -/
def compare (r : RowReading) (op : Comparison) (x y : Cell) : Option Bool :=
  if x.isNull || y.isNull then none
  else match x.order? y with
    | some o => some (op.accepts o)
    | none => r.unordered op x y

/-- The value of a constant. -/
def constant (r : RowReading) : Constant → Cell
  | .integer n => .int n
  | .decimal x => .float x
  | .boolean b => .bool b
  | .text s => .text s
  | .other => r.beyond (.constant .other)

/-- A truth value or, where asked for, its negation. -/
def negateIf (negated : Bool) (t : Option Bool) : Option Bool :=
  if negated then t.map (!·) else t

mutual

/-- The value of an expression on a row. -/
def value (r : RowReading) : Expr → Cell
  | .column name => r.column name
  | .constant c => r.constant c
  | .compare op left right => .ofTruth (r.compare op (r.value left) (r.value right))
  | .and left right => .ofTruth (Predicate.andOpen (r.value left).truth? (r.value right).truth?)
  | .or left right => .ofTruth (Predicate.orOpen (r.value left).truth? (r.value right).truth?)
  | .not inner => .ofTruth ((r.value inner).truth?.map (!·))
  | .isNull inner => .bool (r.value inner).isNull
  | .isNotNull inner => .bool (!(r.value inner).isNull)
  | .inList inner items negated => .ofTruth (negateIf negated (r.among (r.value inner) items))
  | .between inner low high negated =>
    .ofTruth (negateIf negated (Predicate.andOpen (r.compare .ge (r.value inner) (r.value low))
      (r.compare .le (r.value inner) (r.value high))))
  | .other operands => r.beyond (.other operands)
termination_by structural e => e

/-- Whether a value equals one of some expressions. -/
def among (r : RowReading) (x : Cell) : List Expr → Option Bool
  | [] => some false
  | item :: rest => Predicate.orOpen (r.compare .eq x (r.value item)) (r.among x rest)
termination_by structural items => items

end

/-- The truth value of a filter on a row. -/
def truth (r : RowReading) (filter : Expr) : Option Bool := (r.value filter).truth?

/-- Whether a row has in the column of each key the cell of the partition's value. -/
def Carries (r : RowReading) (keys : List PartitionKey) (p : Partition) : Prop :=
  ∀ key ∈ keys, r.column key.name = ((p.value? key.name).getD .null).cell key.type

end RowReading

end SourceTables

import SourceTables.Partition.Layout

/-!
# `SourceTables.Partition.Predicate`: conditions on partitions

A predicate is evaluated on the values of a partition alone. The outcome is open (`none`) where the
partition has no value for a key or the value does not compare with the literal; a null value fails
every comparison. A partition is kept unless the predicate is false on it.

Main statements: `eval_both` (joining two predicates evaluates like their conjunction) and
`keeps_always` (the trivial predicate keeps every partition).
-/

set_option autoImplicit false

namespace SourceTables

/-- The ways to compare two values. -/
inductive Comparison where
  | eq
  | ne
  | lt
  | le
  | gt
  | ge
deriving DecidableEq

/-- Whether an order of two values satisfies a comparison. -/
def Comparison.accepts : Comparison → Ordering → Bool
  | .eq, o => o.isEq
  | .ne, o => o.isNe
  | .lt, o => o.isLT
  | .le, o => o.isLE
  | .gt, o => o.isGT
  | .ge, o => o.isGE

/-- The comparison with its sides swapped. -/
def Comparison.swap : Comparison → Comparison
  | .eq => .eq
  | .ne => .ne
  | .lt => .gt
  | .le => .ge
  | .gt => .lt
  | .ge => .le

/-- A condition on the values of a partition. -/
inductive Predicate where
  | always
  | compare (op : Comparison) (key : String) (literal : Literal)
  | oneOf (key : String) (literals : List Literal)
  | isNull (key : String)
  | and (left right : Predicate)
  | or (left right : Predicate)
  | not (inner : Predicate)

instance : Inhabited Predicate := ⟨.always⟩

namespace Predicate

/-- Conjunction of truth values that may be open. -/
def andOpen : Option Bool → Option Bool → Option Bool
  | some false, _ | _, some false => some false
  | some true, some true => some true
  | _, _ => none

/-- Disjunction of truth values that may be open. -/
def orOpen : Option Bool → Option Bool → Option Bool
  | some true, _ | _, some true => some true
  | some false, some false => some false
  | _, _ => none

/-- A comparison of a partition's value with a literal. -/
def compareValue (p : Partition) (op : Comparison) (key : String) (literal : Literal) :
    Option Bool :=
  match p.value? key with
  -- A key that the partition does not have leaves the outcome open.
  | none => none
  | some value => if value.isNull then some false else (value.compare? literal).map op.accepts

/-- The outcome on a partition, if its values decide it. -/
def eval (p : Partition) : Predicate → Option Bool
  | .always => some true
  | .compare op key literal => compareValue p op key literal
  | .oneOf key literals =>
    literals.foldr (fun literal outcome => orOpen (compareValue p .eq key literal) outcome)
      (some false)
  | .isNull key => (p.value? key).map Literal.isNull
  | .and a b => andOpen (a.eval p) (b.eval p)
  | .or a b => orOpen (a.eval p) (b.eval p)
  | .not a => (a.eval p).map (!·)

/-- Whether a partition may hold rows that satisfy the predicate. -/
def keeps (predicate : Predicate) (p : Partition) : Bool := (predicate.eval p).getD true

/-- Both predicates; the trivial one adds nothing. -/
def both : Predicate → Predicate → Predicate
  | .always, q => q
  | p, .always => p
  | p, q => .and p q

/-- The trivial predicate keeps every partition. -/
@[simp] theorem keeps_always (p : Partition) : keeps .always p = true := rfl

/-- Joining two predicates evaluates like their conjunction. -/
theorem eval_both (p : Partition) (a b : Predicate) :
    (a.both b).eval p = andOpen (a.eval p) (b.eval p) := by
  have left : ∀ x, andOpen (some true) x = x := by intro x; rcases x with _ | _ | _ <;> rfl
  have right : ∀ x, andOpen x (some true) = x := by intro x; rcases x with _ | _ | _ <;> rfl
  cases a <;> cases b <;> simp [both, eval, left, right]

end Predicate

end SourceTables

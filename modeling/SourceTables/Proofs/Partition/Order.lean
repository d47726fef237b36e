import Mathlib.Data.List.Forall2
import SourceTables.Partition.Predicate
import SourceTables.Proofs.Number

/-!
# `SourceTables.Proofs.Partition.Order`: how values of partitions compare

Values are compared part by part, and lists element by element. Such a comparison is symmetric and
transitive when those of the parts are. It need not be reflexive: something may differ from itself.

Values of partitions are compared as values, and a NaN equals nothing, not even itself. So equality of
values is symmetric and transitive, and a value equals itself just when it is not a NaN.

The theorems:

* `Agreement.and`, `Agreement.comap`: a comparison of several parts.
* `Agreement.lists`, `lists_self_iff`: a comparison of lists.
* `compareDoubles_swap`: two doubles compare the other way round when their places are changed.
* `compare?_swap`: so do two literals.
* `Comparison.accepts_swap`: a comparison with its sides swapped accepts the order the other way
  round. Together these let a filter have its literal on either side.
* `unpacked_eq_or_zero`: doubles that are equal have the same parts, unless they are zeros.
* `Literal.agreement_same`, `Literal.same_self_iff`: equality of values.
-/

set_option autoImplicit false

namespace SourceTables

open Float.Model (UnpackedFloat)

/-! ### Comparisons part by part -/

section

variable {α β : Type}

/-- Whether a comparison is symmetric and transitive. -/
structure Agreement (check : α → α → Bool) : Prop where
  symm : ∀ {a b : α}, check a b = true → check b a = true
  trans : ∀ {a b c : α}, check a b = true → check b c = true → check a c = true

namespace Agreement

/-- Equality of values that have no other. -/
theorem eq [BEq α] [LawfulBEq α] : Agreement (fun a b : α => a == b) where
  symm h := beq_iff_eq.mpr (beq_iff_eq.mp h).symm
  trans hab hbc := beq_iff_eq.mpr ((beq_iff_eq.mp hab).trans (beq_iff_eq.mp hbc))

/-- Values are compared by one of their parts. -/
theorem comap {check : β → β → Bool} (h : Agreement check) (part : α → β) :
    Agreement fun a b => check (part a) (part b) :=
  ⟨h.symm, h.trans⟩

/-- Values are compared in two ways. -/
theorem and {check check' : α → α → Bool} (h : Agreement check) (h' : Agreement check') :
    Agreement fun a b => check a b && check' a b where
  symm hab := by
    rw [Bool.and_eq_true] at hab ⊢
    exact ⟨h.symm hab.1, h'.symm hab.2⟩
  trans hab hbc := by
    rw [Bool.and_eq_true] at hab hbc ⊢
    exact ⟨h.trans hab.1 hbc.1, h'.trans hab.2 hbc.2⟩

end Agreement

/-- Two lists are compared element by element. -/
theorem lists_iff {check : α × β → Bool} {xs : List α} {ys : List β} :
    (xs.length == ys.length && (xs.zip ys).all check) = true ↔
      List.Forall₂ (fun x y => check (x, y) = true) xs ys := by
  rw [Bool.and_eq_true, beq_iff_eq, List.forall₂_iff_zip, List.all_eq_true]
  exact and_congr_right fun _ => ⟨fun h _ _ => h _, fun h _ => h⟩

/-- A list agrees with itself when all its elements do. -/
theorem lists_self_iff {check : α × α → Bool} {xs : List α} :
    (xs.length == xs.length && (xs.zip xs).all check) = true ↔ ∀ x ∈ xs, check (x, x) = true := by
  rw [lists_iff, List.forall₂_same]

/-- A comparison of lists is symmetric and transitive if that of their elements is. -/
theorem Agreement.lists {check : α × α → Bool} (h : Agreement fun a b => check (a, b)) :
    Agreement fun xs ys : List α => xs.length == ys.length && (xs.zip ys).all check where
  symm {xs ys} hxy := by
    rw [lists_iff] at hxy ⊢
    exact (hxy.imp fun _ _ => h.symm).flip
  trans {xs ys zs} hxy hyz := by
    rw [lists_iff] at hxy hyz ⊢
    induction hxy generalizing zs with
    | nil => exact hyz
    | cons hfirst _ ih =>
      cases hyz with
      | cons hsecond hrest => exact .cons (h.trans hfirst hsecond) (ih hrest)

end

/-! ### Doubles -/

/-- Unpacked doubles compare the other way round when their places are changed. -/
theorem unpacked_compare_swap (x y : UnpackedFloat) :
    y.compare x = (x.compare y).map Ordering.swap := by
  have sizes (e f : Int) (m n : Nat) :
      (compare f e).then (compare n m) = ((compare e f).then (compare m n)).swap := by
    rw [Ordering.swap_then, ← Std.OrientedCmp.eq_swap, ← Std.OrientedCmp.eq_swap]
  rcases x with s | _ | s | ⟨s, m, e, _⟩ <;> rcases y with t | _ | t | ⟨t, n, f, _⟩ <;>
    (try cases s) <;> (try cases t) <;>
    -- Only two finite doubles of one sign are left to their exponents and mantissas.
    first
    | rfl
    | exact congrArg some (sizes e f m n)
    | exact congrArg some (congrArg Ordering.swap (sizes e f m n))

/-- Doubles compare as their unpacked forms do. -/
theorem compareDoubles_eq_unpacked (x y : Float) :
    Literal.compareDoubles x y = x.toModel.unpack.compare y.toModel.unpack := by
  have hlt (a b : Float) : a < b ↔ a.toModel.unpack.compare b.toModel.unpack = some .lt := by
    show (decide (a.toModel.unpack.lt b.toModel.unpack = true)) = true ↔ _
    simp [UnpackedFloat.lt]
  have heq : (x == y) = (x.toModel.unpack.compare y.toModel.unpack == some .eq) := rfl
  unfold Literal.compareDoubles
  rw [heq]
  simp only [hlt, unpacked_compare_swap x.toModel.unpack y.toModel.unpack]
  rcases x.toModel.unpack.compare y.toModel.unpack with _ | _ | _ | _ <;> rfl

/-- Doubles compare the other way round when their places are changed. -/
theorem compareDoubles_swap (x y : Float) :
    Literal.compareDoubles y x = (Literal.compareDoubles x y).map Ordering.swap := by
  rw [compareDoubles_eq_unpacked, compareDoubles_eq_unpacked, unpacked_compare_swap]

/-! ### Literals and comparisons -/

/-- Literals compare the other way round when their places are changed. -/
theorem Literal.compare?_swap (a b : Literal) :
    b.compare? a = (a.compare? b).map Ordering.swap := by
  cases a <;> cases b <;>
    first
    | rfl
    | exact compareDoubles_swap _ _
    | exact congrArg some Std.OrientedCmp.eq_swap

/-- With its sides swapped a comparison accepts the order the other way round. -/
theorem Comparison.accepts_swap (op : Comparison) (o : Ordering) :
    op.swap.accepts o.swap = op.accepts o := by
  cases op <;> cases o <;> rfl

/-! ### Equal doubles -/

/-- An unpacked double equals itself unless it is a NaN. -/
theorem unpacked_compare_self (x : UnpackedFloat) :
    x.compare x = if x.isNaN then none else some .eq := by
  have parts (e : Int) (m : Nat) : (compare e e).then (compare m m) = .eq :=
    Ordering.then_eq_eq.mpr ⟨Std.LawfulEqOrd.compare_eq_iff_eq.mpr rfl, Std.LawfulEqOrd.compare_eq_iff_eq.mpr rfl⟩
  rcases x with s | _ | s | ⟨s, m, e, _⟩ <;> (try cases s) <;>
    first
    | rfl
    | exact congrArg some (parts e m)
    | exact congrArg some (congrArg Ordering.swap (parts e m))

/-- Zeros are equal whatever their signs; all other doubles that are equal have the same parts. -/
theorem unpacked_eq_or_zero {x y : UnpackedFloat} (h : x.compare y = some .eq) :
    x = y ∨ ∃ s t, x = .zero s ∧ y = .zero t := by
  have parts {e f : Int} {m n : Nat} (h : (compare e f).then (compare m n) = .eq) : e = f ∧ m = n := by
    obtain ⟨he, hm⟩ := Ordering.then_eq_eq.mp h
    exact ⟨Std.LawfulEqOrd.compare_eq_iff_eq.mp he, Std.LawfulEqOrd.compare_eq_iff_eq.mp hm⟩
  rcases x with s | _ | s | ⟨s, m, e, _⟩ <;> rcases y with t | _ | t | ⟨t, n, f, _⟩ <;>
    (try cases s) <;> (try cases t) <;>
    first
    | exact .inl rfl
    | exact .inr ⟨_, _, rfl, rfl⟩
    | cases h
    | skip
  · obtain ⟨rfl, rfl⟩ := parts (Ordering.swap_eq_eq.mp (Option.some.inj h))
    exact .inl rfl
  · obtain ⟨rfl, rfl⟩ := parts (Option.some.inj h)
    exact .inl rfl

/-- Doubles are equal when their unpacked forms compare so. -/
theorem double_eq_iff {x y : Float} :
    (x == y) = true ↔ x.toModel.unpack.compare y.toModel.unpack = some .eq :=
  beq_iff_eq (α := Option Ordering)

/-- A double equals itself unless it is a NaN. -/
theorem double_eq_self_iff {x : Float} : (x == x) = true ↔ x.isNaN = false := by
  have hnan : x.toModel.unpack.isNaN = x.isNaN := rfl
  rw [double_eq_iff, unpacked_compare_self, hnan]
  cases x.isNaN <;> simp

theorem double_eq_symm {x y : Float} (h : (x == y) = true) : (y == x) = true := by
  rw [double_eq_iff] at h ⊢
  rw [unpacked_compare_swap, h]
  rfl

theorem double_eq_trans {x y z : Float} (hxy : (x == y) = true) (hyz : (y == z) = true) :
    (x == z) = true := by
  rw [double_eq_iff] at hxy hyz ⊢
  obtain hsame | ⟨s, t, hx, hy⟩ := unpacked_eq_or_zero hxy
  · rw [hsame, hyz]
  · obtain hsame | ⟨t', u, -, hz⟩ := unpacked_eq_or_zero hyz
    · rw [← hsame, hxy]
    · rw [hx, hz]
      rfl

/-! ### Equal literals -/

namespace Literal

/-- Whether a literal is a NaN. -/
def isNaN : Literal → Bool
  | .decimal x => x.isNaN
  | .integer _ | .boolean _ | .text _ | .null => false

/-- A literal equals itself unless it is a NaN. -/
theorem same_self_iff {l : Literal} : l.same l = true ↔ l.isNaN = false := by
  cases l with
  | decimal x => exact double_eq_self_iff
  | integer | boolean | text => simp [same, isNaN]
  | null => exact iff_of_true rfl rfl

/-- A value is a NaN when its text stands for one and all values of its key are numbers. -/
theorem isNaN_parse (raw : String) (type : TextType) :
    (parse raw type).isNaN = (type == .decimal && Number.namesNaN raw) := by
  unfold parse
  split
  · next hnull =>
    have hraw : Number.namesNaN raw = false := by
      simp only [isNullText, Bool.or_eq_true, beq_iff_eq, String.isEmpty_iff] at hnull
      obtain rfl | rfl := hnull <;> decide
    rw [hraw, Bool.and_false]
    rfl
  · cases type with
    | decimal =>
      rw [← Number.any_isNaN_double?]
      show Literal.isNaN (((Number.double? raw).map Literal.decimal).getD (.text raw)) = _
      cases Number.double? raw <;> rfl
    | integer => cases hread : Number.int64? raw <;> simp [read?, hread, isNaN]
    | truth => cases hread : Number.truth? raw <;> simp [read?, hread, isNaN]
    | text => rfl

/-- Equality of literals is symmetric and transitive. -/
theorem agreement_same : Agreement same where
  symm {a b} h := by
    cases a <;> cases b <;>
      first
      | exact double_eq_symm h
      | exact beq_iff_eq.mpr (beq_iff_eq.mp h).symm
      | exact h
  trans {a b c} hab hbc := by
    cases a <;> cases b <;> cases c <;>
      first
      | exact double_eq_trans hab hbc
      | exact beq_iff_eq.mpr ((beq_iff_eq.mp hab).trans (beq_iff_eq.mp hbc))
      | cases hab
        done
      | cases hbc
        done
      | exact hbc

end Literal

end SourceTables

import SourceTables.Partition.Predicate

/-!
# `SourceTables.Proofs.Query.Extended`: outcomes once more values are known

A predicate may be evaluated on a partition that lacks some of its keys. What it decides there it
decides for every value of those keys. The connectives are monotone in what is known about their
parts, the negation included, since what is known is kept from both sides; the induction over
predicates carries this order and not an order of truth values, in which a negation would turn around.

The theorems:

* `Partition.extends_insert`: a value for a new key, put anywhere, extends a partition.
* `Known.and`, `Known.or`, `Known.not`: each connective keeps what is known.
* `known_eval`: the outcome on a partition is kept on every partition that extends it.
* `decided_of_extends`: so a partition that is left out would be left out for every value of a key
  that it does not have, and the trivial predicate can be dropped from a conjunction.
-/

set_option autoImplicit false

namespace SourceTables

/-! ### More values -/

namespace Partition

/-- Whether a partition has every value of another one, and maybe values for more keys. -/
def Extends (q p : Partition) : Prop := ∀ key value, p.value? key = some value → q.value? key = some value

/-- A partition with a value for one more key, put after some of its values. -/
def insert (p : Partition) (position : Nat) (key : String) (value : Literal) : Partition :=
  { p with values := p.values.take position ++ (key, value) :: p.values.drop position }

namespace Extends

theorem refl (p : Partition) : p.Extends p := fun _ _ h => h

theorem trans {p q r : Partition} (h : r.Extends q) (h' : q.Extends p) : r.Extends p :=
  fun key value hvalue => h key value (h' key value hvalue)

end Extends

/-- A partition has the values for other keys that it had before one was put in. -/
theorem value?_insert_of_ne (p : Partition) (position : Nat) {key other : String} (value : Literal)
    (hother : other ≠ key) : (p.insert position key value).value? other = p.value? other := by
  unfold value? insert
  have hkey : ((key, value).1 == other) = false := beq_false_of_ne hother.symm
  rw [List.find?_append, List.find?_cons, hkey, ← List.find?_append, List.take_append_drop]

/-- A value for a new key, put anywhere, extends a partition. -/
theorem extends_insert {p : Partition} {key : String} (hkey : p.value? key = none) (position : Nat)
    (value : Literal) : (p.insert position key value).Extends p := by
  intro other found hfound
  have hother : other ≠ key := by
    rintro rfl
    cases hkey.symm.trans hfound
  rw [p.value?_insert_of_ne position value hother, hfound]

end Partition

/-! ### What is known -/

/-- Whether an outcome that is decided is also the outcome once more is known. -/
def Known (outcome later : Option Bool) : Prop := ∀ b, outcome = some b → later = some b

namespace Known

theorem of_none (later : Option Bool) : Known none later := nofun

theorem refl (outcome : Option Bool) : Known outcome outcome := fun _ h => h

/-- What is known of both sides is known of their conjunction. -/
theorem and {a b c d : Option Bool} (ha : Known a c) (hb : Known b d) :
    Known (Predicate.andOpen a b) (Predicate.andOpen c d) := by
  intro outcome h
  -- One side that is false decides, whatever the other one turns out to be.
  rcases a with _ | _ | _ <;> rcases b with _ | _ | _ <;> cases h <;>
    first
    | rw [ha _ rfl, hb _ rfl]; rfl
    | rw [ha _ rfl]; rfl
    | rw [hb _ rfl]; cases c with | none => rfl | some c => cases c <;> rfl

/-- What is known of both sides is known of their disjunction. -/
theorem or {a b c d : Option Bool} (ha : Known a c) (hb : Known b d) :
    Known (Predicate.orOpen a b) (Predicate.orOpen c d) := by
  intro outcome h
  -- One side that is true decides, whatever the other one turns out to be.
  rcases a with _ | _ | _ <;> rcases b with _ | _ | _ <;> cases h <;>
    first
    | rw [ha _ rfl, hb _ rfl]; rfl
    | rw [ha _ rfl]; rfl
    | rw [hb _ rfl]; cases c with | none => rfl | some c => cases c <;> rfl

/-- What is known of a truth value is known of its negation. -/
theorem not {a c : Option Bool} (h : Known a c) : Known (a.map (!·)) (c.map (!·)) := by
  intro outcome houtcome
  obtain ⟨b, hb, rfl⟩ := Option.map_eq_some_iff.mp houtcome
  rw [h b hb]
  rfl

end Known

section

variable {p q : Partition} (h : q.Extends p)
include h

/-- A comparison with a value that is there has the same outcome. -/
theorem known_compareValue (op : Comparison) (key : String) (literal : Literal) :
    Known (Predicate.compareValue p op key literal) (Predicate.compareValue q op key literal) := by
  unfold Predicate.compareValue
  cases hvalue : p.value? key with
  | none => exact Known.of_none _
  | some value =>
    rw [h key value hvalue]
    exact Known.refl _

/-- A test of a value that is there for null has the same outcome. -/
theorem known_isNull (key : String) :
    Known ((p.value? key).map Literal.isNull) ((q.value? key).map Literal.isNull) := by
  cases hvalue : p.value? key with
  | none => exact Known.of_none _
  | some value =>
    rw [h key value hvalue]
    exact Known.refl _

/-- The outcome on a partition is kept on every partition that extends it. -/
theorem known_eval (predicate : Predicate) : Known (predicate.eval p) (predicate.eval q) := by
  induction predicate with
  | always => exact Known.refl _
  | compare op key literal => exact known_compareValue h op key literal
  | oneOf key literals =>
    -- The outcomes of the literals accumulate, so this is an induction of its own.
    induction literals with
    | nil => exact Known.refl _
    | cons literal rest ih => exact Known.or (known_compareValue h .eq key literal) ih
  | isNull key => exact known_isNull h key
  | and a b iha ihb => exact Known.and iha ihb
  | or a b iha ihb => exact Known.or iha ihb
  | not a ih => exact Known.not ih

/-- A partition that is left out is left out also once more of its values are known. -/
theorem Predicate.keeps_eq_false_of_extends {predicate : Predicate} (hp : predicate.keeps p = false) :
    predicate.keeps q = false := by
  have houtcome : predicate.eval p = some false := by
    unfold keeps at hp
    cases heval : predicate.eval p with
    | none => rw [heval] at hp; cases hp
    | some b => rw [heval] at hp; exact congrArg some hp
  rw [keeps, known_eval h predicate false houtcome]
  rfl

end

/-- What a predicate decides on a partition it decides alike on every partition that has more values.
So a partition that it leaves out would be left out with every value of a key that it does not have;
and joining predicates is evaluated as their conjunction. -/
theorem decided_of_extends (predicate : Predicate) (p : Partition) :
    (∀ q : Partition, q.Extends p →
      (∀ b, predicate.eval p = some b → predicate.eval q = some b) ∧
      (predicate.keeps p = false → predicate.keeps q = false)) ∧
    (predicate.keeps p = false → ∀ key, p.value? key = none → ∀ position value,
      predicate.keeps (p.insert position key value) = false) ∧
    (∀ other : Predicate, (predicate.both other).eval p = (Predicate.and predicate other).eval p) := by
  refine ⟨fun q h => ⟨known_eval h predicate, ?_⟩, fun hp key hkey position value => ?_,
    fun other => ?_⟩
  · exact Predicate.keeps_eq_false_of_extends h
  · exact Predicate.keeps_eq_false_of_extends (Partition.extends_insert hkey position value) hp
  · exact Predicate.eval_both p predicate other

/-- A year whose days are not known. -/
def yearPartition : Partition := ⟨[("year", .integer 2023)], ⟨"year=2023"⟩, [⟨"t/year=2023/a.csv"⟩]⟩

/-- A condition on the year and the day. -/
def firstDayOf2024 : Predicate :=
  .not (.or (.compare .ne "year" (.integer 2024)) (.not (.oneOf "day" [.integer 1])))

/-- The first day of another year is ruled out by the year alone, so it is ruled out for the first day,
for the second, and for one that does not compare with a day. -/
theorem decided_yearPartition :
    firstDayOf2024.keeps yearPartition = false ∧
    ∀ value : Literal, firstDayOf2024.keeps (yearPartition.insert 1 "day" value) = false := by
  have hyear : firstDayOf2024.keeps yearPartition = false := by decide +kernel
  have hlater := decided_of_extends firstDayOf2024 yearPartition
  have hday (value : Literal) : (yearPartition.insert 1 "day" value).Extends yearPartition :=
    Partition.extends_insert (by decide +kernel) 1 value
  exact ⟨hyear, fun value => (hlater.1 _ (hday value)).2 hyear⟩

end SourceTables

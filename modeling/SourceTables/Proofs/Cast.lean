import SourceTables.Cast
import SourceTables.Partition.Literal
import SourceTables.Proofs.Merge

/-!
# `SourceTables.Proofs.Cast`: cells under the types that columns give way to

Columns of one name give way to a type that holds them all. Their cells can be put under it unless it
is texts that a structure gave way to, and what is put under a type has that type.

The theorems:

* `DataType.castsTo_joinAll_iff`: the cells of a type go under the type that all of some types give way
  to exactly if it is no structure or if no other type has values.
* `hasType_castCell`: a cell that is put under a type has that type.
-/

set_option autoImplicit false

namespace SourceTables

namespace DataType

/-- Whether a type is that of structures. -/
def isStruct : DataType → Bool
  | .struct _ => true
  | _ => false

/-! ### Types that cells go under -/

theorem le_iff {a b : DataType} : a ≤ b ↔ a.join b = b := sup_eq_right.symm

/-- A type gives way to itself, to doubles if it is one of numbers, and to texts. -/
theorem cases_of_le {a b : DataType} (h : a ≤ b) :
    a = .null ∨ b = a ∨ (a.isNumeric = true ∧ b = .float64) ∨ b = .utf8 := by
  rw [le_iff] at h
  by_cases ha : a = .null
  · exact .inl ha
  by_cases hb : b = .null
  · -- Only nulls give way to nulls.
    rw [hb, join_null] at h
    exact absurd h ha
  rw [join_of_ne ha hb] at h
  split_ifs at h with heq hnum
  · exact .inr (.inl heq.symm)
  · simp only [Bool.and_eq_true] at hnum
    exact .inr (.inr (.inl ⟨hnum.1, h.symm⟩))
  · exact .inr (.inr (.inr h.symm))

/-- Cells go under a type that theirs gives way to, but structures have no texts. -/
theorem castsTo_iff_of_le {a b : DataType} (h : a ≤ b) :
    a.castsTo b = true ↔ (a.isStruct = true → b = a) := by
  obtain rfl | rfl | ⟨hnum, rfl⟩ | rfl := cases_of_le h
  · simp [castsTo, isStruct]
  · simp [castsTo]
  · cases a <;> simp_all [castsTo, isStruct, isNumeric]
  · cases a <;> simp [castsTo, isStruct]

/-! ### The type that all of some types give way to -/

/-- Each of some types gives way to what all of them give way to. -/
theorem le_joinAll {types : List DataType} {t : DataType} (h : t ∈ types) : t ≤ joinAll types := by
  induction types with
  | nil => cases h
  | cons u rest ih =>
    show t ≤ u ⊔ joinAll rest
    obtain rfl | h := List.mem_cons.mp h
    · exact le_sup_left
    · exact le_sup_of_le_right (ih h)

theorem joinAll_le {types : List DataType} {t : DataType} (h : ∀ u ∈ types, u ≤ t) : joinAll types ≤ t := by
  induction types with
  | nil => exact bot_le
  | cons u rest ih =>
    show u ⊔ joinAll rest ≤ t
    exact sup_le (h u (.head _)) (ih fun v hv => h v (.tail _ hv))

/-- Only nulls and structures of the same members give way to a structure. -/
theorem le_struct_iff {a t : DataType} (hstruct : a.isStruct = true) : t ≤ a ↔ t = .null ∨ t = a := by
  constructor
  · intro h
    obtain rfl | rfl | ⟨-, rfl⟩ | rfl := cases_of_le h
    · exact .inl rfl
    · exact .inr rfl
    · cases hstruct
    · cases hstruct
  · rintro (rfl | rfl)
    · exact bot_le
    · exact le_refl _

/-- The cells of a type go under what it gives way to together with others, unless it is one of structures
and another type has values. -/
theorem castsTo_joinAll_iff {types : List DataType} {a : DataType} (ha : a ∈ types) :
    a.castsTo (joinAll types) = true ↔ (a.isStruct = true → ∀ t ∈ types, t = .null ∨ t = a) := by
  rw [castsTo_iff_of_le (le_joinAll ha)]
  -- Structures give way to themselves alone just when all the others give way to them.
  refine forall_congr' fun hstruct => ?_
  constructor
  · intro heq t ht
    rw [← le_struct_iff hstruct, ← heq]
    exact le_joinAll ht
  · intro hall
    refine le_antisymm (joinAll_le fun t ht => ?_) (le_joinAll ha)
    exact (le_struct_iff hstruct).mpr (hall t ht)

end DataType

/-! ### Cells of a type -/

mutual

/-- Whether a cell is null or a value of a type. -/
def Cell.hasType (type : DataType) : Cell → Bool
  | .null => true
  | .bool _ => type = .boolean
  | .int _ => match type with
    | .scalar (.signed _) | .scalar (.unsigned _) => true
    | _ => false
  | .float _ => match type with
    | .scalar .float32 | .scalar .float64 => true
    | _ => false
  | .text _ => type = .utf8
  | .date _ => type = .date
  | .instant _ => match type with
    | .timestamp _ => true
    | _ => false
  | .list items => match type with
    | .list item => Cell.allHaveType item items
    | _ => false
  | .struct members => match type with
    | .struct fields => Cell.haveTypes fields members
    | _ => false
termination_by structural c => c

/-- Whether all cells are null or values of a type. -/
def Cell.allHaveType (type : DataType) : List Cell → Bool
  | [] => true
  | c :: rest => c.hasType type && Cell.allHaveType type rest
termination_by structural cs => cs

/-- Whether there is a cell for each member, null or a value of its type. -/
def Cell.haveTypes (fields : List (Field DataType)) : List Cell → Bool
  | [] => fields.isEmpty
  | c :: rest => match fields with
    | f :: fields => c.hasType f.type && Cell.haveTypes fields rest
    | [] => false
termination_by structural cs => cs

end

/-- Nulls have every type. -/
theorem hasType_of_isNull {c : Cell} (h : c.isNull = true) (t : DataType) : c.hasType t = true := by
  cases c with
  | null => rfl
  | _ => cases h

theorem isNull_of_hasType_null {c : Cell} (h : c.hasType .null = true) : c.isNull = true := by
  cases c <;> simp_all [Cell.hasType, Cell.isNull]

/-- Cells go under their own type, from nothing but nulls, from numbers under doubles and under texts. -/
theorem DataType.cases_of_castsTo {source target : DataType} (h : source.castsTo target = true) :
    source = target ∨ source = .null ∨ (source.isNumeric = true ∧ target = .float64) ∨ target = .utf8 := by
  simp only [DataType.castsTo, Bool.or_eq_true, decide_eq_true_eq, or_assoc] at h
  obtain h | h | h := h
  · exact .inl h
  · exact .inr (.inl h)
  · split at h
    · exact .inr (.inr (.inl ⟨h, rfl⟩))
    · exact .inr (.inr (.inr rfl))
    · exact .inr (.inr (.inr rfl))
    · cases h

/-- A number is an integer or a double, if it is no null. -/
theorem cases_of_hasType_numeric {type : DataType} {c : Cell} (hnum : type.isNumeric = true)
    (hc : c.hasType type = true) : c = .null ∨ (∃ n, c = .int n) ∨ ∃ x, c = .float x := by
  cases c with
  | null => exact .inl rfl
  | int n => exact .inr (.inl ⟨n, rfl⟩)
  | float x => exact .inr (.inr ⟨x, rfl⟩)
  -- Other values are of types that are not those of numbers.
  | bool value | text value | date days =>
    simp only [Cell.hasType, decide_eq_true_eq] at hc
    rw [hc] at hnum
    cases hnum
  | instant count | list items | struct members =>
    simp only [Cell.hasType] at hc
    split at hc
    · cases hnum
    · cases hc

/-- A cell that is put under a type has that type. -/
theorem hasType_castCell {source target : DataType} {c : Cell} (hcasts : source.castsTo target = true)
    (hc : c.hasType source = true) : (castCell source target c).hasType target = true := by
  by_cases hnull : c.isNull = true
  · exact hasType_of_isNull (by rw [isNull_castCell, hnull]) target
  by_cases hsame : source = target
  · subst hsame
    have heq : castCell source source c = c := by simp [castCell]
    rw [heq]
    exact hc
  -- From here on a value is converted.
  unfold castCell
  rw [if_neg (by simp [hsame, hnull])]
  obtain rfl | rfl | ⟨hnum, rfl⟩ | rfl := DataType.cases_of_castsTo hcasts
  · exact absurd rfl hsame
  · exact absurd (isNull_of_hasType_null hc) hnull
  · -- An integer is converted, and a double is one already.
    obtain rfl | ⟨n, rfl⟩ | ⟨x, rfl⟩ := cases_of_hasType_numeric hnum hc
    · exact absurd rfl hnull
    · rfl
    · rfl
  · rfl

/-- The value of a partition has the type of its key. -/
theorem Literal.hasType_cell (type : TextType) (l : Literal) : (l.cell type).hasType type.dataType = true := by
  cases l <;> cases type <;> rfl

end SourceTables

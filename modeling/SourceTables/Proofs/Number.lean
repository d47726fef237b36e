import Mathlib.Logic.Basic
import SourceTables.Number.Decimal
import SourceTables.Number.Integer

/-!
# `SourceTables.Proofs.Number`: numbers as text

A natural number is written in digits, at least one, and without a leading zero unless it is zero.

A decimal number is read as the nearest double, which may be infinite, but never as a NaN: its bits do not
go beyond those of infinity. So the texts that are read as a NaN are those that say so, in any letter case
and with a sign or without.

The theorems:

* `natOfDigits?_toString`: a natural number that was written reads back.
* `toString_injective`: different numbers are written differently.
* `isDigit_of_mem_toString`, `toString_ne_nil` and `head?_toString`: what it is written in.
* `any_isNaN_double?`: which texts are read as a NaN.
-/

set_option autoImplicit false

namespace SourceTables.Number

/-! ### Natural numbers -/

/-- A number is written in digits. -/
theorem isDigit_of_mem_toString {n : Nat} {c : Char} (h : c ∈ (toString n).toList) :
    c.isDigit = true := by
  rw [Nat.toString_eq_ofList_toDigits, String.toList_ofList] at h
  exact Nat.isDigit_of_mem_toDigits (by decide) (by decide) h

/-- It is written in at least one digit. -/
theorem toString_ne_nil (n : Nat) : (toString n).toList ≠ [] := by
  rw [Nat.toString_eq_ofList_toDigits, String.toList_ofList]
  exact Nat.toDigits_ne_nil

/-- A number that is not zero has no leading zero. -/
theorem head?_toString {n : Nat} (hn : 0 < n) : (toString n).toList.head? ≠ some '0' := by
  rw [Nat.toString_eq_ofList_toDigits, String.toList_ofList]
  induction n using Nat.strongRecOn with
  | _ n ih =>
    by_cases h : n < 10
    · rw [Nat.toDigits_of_lt_base h]
      have hdigits : ∀ d < 10, 0 < d → [d.digitChar].head? ≠ some '0' := by decide
      exact hdigits n h hn
    · have hfirst := ih (n / 10) (by omega) (by omega)
      obtain ⟨d, ds, hd⟩ := List.exists_cons_of_ne_nil (Nat.toDigits_ne_nil (n := n / 10) (b := 10))
      rw [hd] at hfirst
      rw [Nat.toDigits_of_base_le (by decide) (by omega), hd]
      exact hfirst

/-- Digits after digits. -/
theorem extendByDigits?_append (start : Nat) (xs ys : List Char) :
    extendByDigits? start (xs ++ ys) = (extendByDigits? start xs).bind (extendByDigits? · ys) := by
  induction xs generalizing start with
  | nil => rfl
  | cons c rest ih =>
    rw [List.cons_append, extendByDigits?, extendByDigits?]
    cases digitValue? c with
    | none => rfl
    | some d => exact ih _

/-- A number that was written reads back. -/
theorem natOfDigits?_toString (n : Nat) : natOfDigits? (toString n).toList = some n := by
  have extend : extendByDigits? 0 (toString n).toList = some n := by
    rw [Nat.toString_eq_ofList_toDigits, String.toList_ofList]
    have digit : ∀ d < 10, digitValue? d.digitChar = some d := by decide
    induction n using Nat.strongRecOn with
    | _ n ih =>
      by_cases h : n < 10
      · rw [Nat.toDigits_of_lt_base h, extendByDigits?, digit n h]
        simp [extendByDigits?]
      · rw [Nat.toDigits_of_base_le (by decide) (by omega), extendByDigits?_append,
          ih (n / 10) (by omega), Option.bind_some, extendByDigits?, digit _ (Nat.mod_lt n (by decide))]
        simp only [Option.bind_eq_bind, Option.bind_some, extendByDigits?, Option.some.injEq]
        omega
  unfold natOfDigits?
  split
  · next h => exact absurd h (toString_ne_nil n)
  · exact extend

/-- A number is known by how it is written. -/
theorem toString_injective {m n : Nat} (h : toString m = toString n) : m = n := by
  have hm := natOfDigits?_toString m
  rw [h, natOfDigits?_toString] at hm
  injection hm with hm
  exact hm.symm

open Float.Model (Format UnpackedFloat)
open Float.Model.UnpackedFloat

/-! ### Doubles that were packed -/

/-- Bits are those of a NaN when the exponent is the greatest and the mantissa is not zero. -/
theorem isNaN_unpack_iff {spec : Format} {b : BitVec spec.numBits} :
    (unpack spec b).isNaN = true ↔ unpackExponent b = -1#_ ∧ unpackMantissa b ≠ 0#_ := by
  unfold unpack
  dsimp only
  by_cases hexponent : unpackExponent b = -1#_
  · rw [if_pos hexponent]
    by_cases hmantissa : unpackMantissa b = 0#_
    · rw [if_pos hmantissa]
      exact iff_of_false Bool.false_ne_true fun h => h.2 hmantissa
    · rw [if_neg hmantissa]
      exact iff_of_true rfl ⟨hexponent, hmantissa⟩
  · rw [if_neg hexponent]
    by_cases hzero : unpackExponent b = 0#_
    · rw [if_pos hzero]
      by_cases hmantissa : unpackMantissa b = 0#_
      · rw [dif_pos hmantissa]
        exact iff_of_false Bool.false_ne_true fun h => hexponent h.1
      · rw [dif_neg hmantissa]
        exact iff_of_false Bool.false_ne_true fun h => hexponent h.1
    · rw [if_neg hzero]
      exact iff_of_false Bool.false_ne_true fun h => hexponent h.1

/-- Nothing but a NaN is packed as one. -/
theorem not_isNaN_unpack_pack {spec : Format} {u : UnpackedFloat} (h : u.isNaN = false) :
    (unpack spec (pack spec u)).isNaN = false := by
  have hbits : 2 ≤ 2 ^ spec.exponentBits := Nat.le_self_pow (Nat.pos_iff_ne_zero.mp spec.he) 2
  rw [← Bool.not_eq_true, isNaN_unpack_iff, not_and_or, not_not]
  fun_cases pack with
  | case1 => cases h
  | case2 s => exact .inr (by simp [packedInfinity])
  | case3 s => exact .inr (by simp [packedZero])
  | case4 s m e hm biasedExponent h => exact .inr (by simp [packedInfinity])
  | case5 s m e hm actualMantissaBits biasedExponent hinfinite hnormal =>
    refine .inl ?_
    rw [unpackExponent_packComponents, BitVec.neg_one_eq_allOnes, ← BitVec.toNat_inj, BitVec.toNat_ofNat,
      BitVec.toNat_allOnes, Nat.mod_eq_of_lt (by omega)]
    omega
  | case6 s m e hm actualMantissaBits biasedExponent hinfinite hnormal =>
    refine .inl ?_
    rw [unpackExponent_packComponents, BitVec.neg_one_eq_allOnes, ← BitVec.toNat_inj, BitVec.toNat_ofNat,
      BitVec.toNat_allOnes, Nat.zero_mod]
    omega

/-- Bits that do not go beyond those of infinity are not those of a NaN. -/
theorem not_isNaN_ofSignedBits (negative : Bool) {bits : Nat} (h : bits ≤ infinityBits) :
    (ofSignedBits negative bits).isNaN = false := by
  refine not_isNaN_unpack_pack ?_
  have hinfinity : infinityBits = 2047 * 2 ^ 52 := by decide
  generalize hn : (if negative then bits + (1 <<< 63) else bits) = n
  have hbits : n = bits ∨ n = bits + 2 ^ 63 := by
    cases negative
    · exact .inl hn.symm
    · exact .inr hn.symm
  have hword : (UInt64.ofNat n).toBitVec.toNat = n := by
    rw [UInt64.toBitVec_ofNat', BitVec.toNat_ofNat]
    exact Nat.mod_eq_of_lt (by omega)
  rw [← Bool.not_eq_true, isNaN_unpack_iff]
  rintro ⟨hexponent, hmantissa⟩
  have hexponent' := congrArg BitVec.toNat hexponent
  refine hmantissa (BitVec.eq_of_toNat_eq ?_)
  simp only [unpackExponent, unpackMantissa, BitVec.toNat_cast, BitVec.extractLsb_toNat, hword,
    Nat.shiftRight_eq_div_pow] at hexponent' ⊢
  change n / 2 ^ 52 % 2 ^ 11 = 2047 at hexponent'
  change n / 2 ^ 0 % 2 ^ 52 = 0
  omega

/-! ### Decimal numbers -/

/-- A rounded quotient does not go beyond infinity. -/
theorem roundRatio_le (num den : Nat) : roundRatio num den ≤ infinityBits := by
  unfold roundRatio
  split
  · exact Nat.zero_le _
  · exact Nat.min_le_right _ _

/-- A decimal is not read as a NaN. -/
theorem not_isNaN_ofDecimal (negative : Bool) (m : Nat) (e : Int) :
    (ofDecimal negative m e).isNaN = false := by
  unfold ofDecimal
  dsimp only
  split
  · exact not_isNaN_ofSignedBits _ (Nat.zero_le _)
  · split
    · exact not_isNaN_ofSignedBits _ (Nat.le_refl _)
    · split
      · exact not_isNaN_ofSignedBits _ (Nat.zero_le _)
      · split <;> exact not_isNaN_ofSignedBits _ (roundRatio_le _ _)

/-- Whether characters spell a NaN, in any letter case. -/
def spellsNaN (cs : List Char) : Bool := cs.map Char.toLower == ['n', 'a', 'n']

/-- Whether a text stands for a NaN: with a sign or without. -/
def namesNaN (s : String) : Bool :=
  match s.toList with
  | '+' :: rest | '-' :: rest => spellsNaN rest
  | cs => spellsNaN cs

/-- No decimal number spells a NaN. -/
theorem not_spellsNaN_of_decimal? {cs : List Char} {d : Decimal} (h : decimal? cs = some d) :
    spellsNaN cs = false := by
  rw [← Bool.not_eq_true]
  intro hcs
  unfold spellsNaN at hcs
  obtain ⟨c, rest, rfl⟩ : ∃ c rest, cs = c :: rest := by
    cases cs with
    | nil => cases hcs
    | cons c rest => exact ⟨c, rest, rfl⟩
  have hc : c.toLower = 'n' := (List.cons.inj (beq_iff_eq.mp hcs)).1
  -- The first letter is no digit and no point, so that there are no digits at all.
  have hdigit : c.isDigit = false := by
    rw [← Bool.not_eq_true]
    intro hdigit
    have hlower : c.toLower = c := by
      simp only [Char.isDigit, Bool.and_eq_true, decide_eq_true_eq] at hdigit
      refine dif_neg fun hupper => ?_
      exact absurd (UInt32.le_trans hupper.1 hdigit.2) (by decide)
    rw [hlower] at hc
    subst hc
    exact absurd hdigit (by decide)
  have hpoint : c ≠ '.' := by
    rintro rfl
    exact absurd hc (by decide)
  have hnone : decimal? (c :: rest) = none := by
    have hno : ¬ c.isDigit = true := by simp [hdigit]
    unfold decimal? takeDigits
    rw [List.takeWhile_cons_of_neg hno, List.dropWhile_cons_of_neg hno]
    refine if_pos ?_
    dsimp only
    split
    · next heq => exact absurd (List.cons.inj heq).1 hpoint
    · rfl
  cases hnone.symm.trans h

/-- A text without a sign is read as a NaN just when it spells one. -/
theorem any_isNaN_unsignedDouble? (negative : Bool) (cs : List Char) :
    (unsignedDouble? negative cs).any Float.isNaN = spellsNaN cs := by
  unfold unsignedDouble?
  split
  · next d hd => exact (not_isNaN_ofDecimal ..).trans (not_spellsNaN_of_decimal? hd).symm
  · have hword (word : String) :
        String.ofList (cs.map Char.toLower) = word ↔ cs.map Char.toLower = word.toList :=
      ⟨fun h => by rw [← h, String.toList_ofList], fun h => by rw [h, String.ofList_toList]⟩
    unfold special? spellsNaN
    simp only [Bool.or_eq_true, decide_eq_true_eq, hword]
    split
    · next hinfinite =>
      refine (not_isNaN_ofSignedBits _ (Nat.le_refl _)).trans ?_
      obtain hinfinite | hinfinite := hinfinite <;> rw [hinfinite] <;> decide
    · split
      · next hnan =>
        rw [hnan]
        cases negative <;> decide +kernel
      · next hnan => exact (beq_false_of_ne hnan).symm

/-- A text is read as a NaN just when it stands for one. -/
theorem any_isNaN_double? (s : String) : (double? s).any Float.isNaN = namesNaN s := by
  unfold double? doubleList? namesNaN
  cases s.toList with
  | nil => exact any_isNaN_unsignedDouble? ..
  | cons c rest =>
    by_cases hplus : c = '+'
    · subst hplus
      exact any_isNaN_unsignedDouble? ..
    · by_cases hminus : c = '-'
      · subst hminus
        exact any_isNaN_unsignedDouble? ..
      · simp [hplus, hminus, any_isNaN_unsignedDouble?]

end SourceTables.Number

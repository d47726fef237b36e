import SourceTables.TextType

/-!
# `SourceTables.Proofs.TextType`: the type that some texts have together

Four types are tried for texts that come without one, and the first under which all of the texts read is
theirs. Texts that read under an earlier type may read under later ones too, so what makes a type the one
of some texts is also that each type before it is refuted by one of them.

The theorems:

* `TextType.Types.eq`: texts have one type at most.
* `TextType.types_infer`: the type that is found for texts is theirs.
-/

set_option autoImplicit false

namespace SourceTables

namespace TextType

/-- How many types are tried before a type. -/
def rank : TextType → Nat
  | .integer => 0
  | .decimal => 1
  | .truth => 2
  | .text => 3

theorem rank_injective : Function.Injective rank := by
  intro a b h
  cases a <;> cases b <;> first | rfl | cases h

/-- Whether a type is the one of some texts. -/
structure Types (type : TextType) (texts : List String) : Prop where
  /-- All of the texts read under it. -/
  reads : ∀ s ∈ texts, (type.read? s).isSome = true
  /-- A type that is tried before is refuted by some text. -/
  first : texts ≠ [] → ∀ earlier : TextType, earlier.rank < type.rank →
    ∃ s ∈ texts, earlier.read? s = none
  /-- Nothing is known of no texts. -/
  nothing : texts = [] → type = .text

/-- Texts have one type at most. -/
theorem Types.eq {a b : TextType} {texts : List String} (ha : a.Types texts) (hb : b.Types texts) :
    a = b := by
  by_cases hnone : texts = []
  · rw [ha.nothing hnone, hb.nothing hnone]
  · -- Were one of the types tried before the other, some text would not read under it.
    have hle {a b : TextType} (ha : a.Types texts) (hb : b.Types texts) : a.rank ≤ b.rank := by
      apply Nat.le_of_not_lt
      intro hlt
      obtain ⟨s, hs, hrefuted⟩ := ha.first hnone b hlt
      have hreads := hb.reads s hs
      simp [hrefuted] at hreads
    exact rank_injective (Nat.le_antisymm (hle ha hb) (hle hb ha))

/-- If not all texts read under a type, some text refutes it. -/
theorem exists_refutation {type : TextType} {texts : List String}
    (h : ¬ (texts.all fun s => (type.read? s).isSome) = true) : ∃ s ∈ texts, type.read? s = none := by
  simpa using h

/-- The type that is found for texts is theirs. -/
theorem types_infer (texts : List String) : (infer texts).Types texts := by
  unfold infer
  by_cases hnone : texts = []
  · subst hnone
    exact ⟨by simp, fun h => absurd rfl h, fun _ => rfl⟩
  · have hsome : ¬ texts.isEmpty = true := by simpa using hnone
    rw [if_neg hsome]
    -- Each type that is passed over has been refuted when the next one is tried.
    by_cases hinteger : (texts.all fun s => (integer.read? s).isSome) = true
    · rw [if_pos hinteger]
      refine ⟨List.all_eq_true.mp hinteger, fun _ earlier hearlier => ?_, fun h => absurd h hnone⟩
      cases earlier <;> simp [rank] at hearlier
    rw [if_neg hinteger]
    by_cases hdecimal : (texts.all fun s => (decimal.read? s).isSome) = true
    · rw [if_pos hdecimal]
      refine ⟨List.all_eq_true.mp hdecimal, fun _ earlier hearlier => ?_, fun h => absurd h hnone⟩
      cases earlier <;> simp [rank] at hearlier
      exact exists_refutation hinteger
    rw [if_neg hdecimal]
    by_cases htruth : (texts.all fun s => (truth.read? s).isSome) = true
    · rw [if_pos htruth]
      refine ⟨List.all_eq_true.mp htruth, fun _ earlier hearlier => ?_, fun h => absurd h hnone⟩
      cases earlier <;> simp [rank] at hearlier
      · exact exists_refutation hinteger
      · exact exists_refutation hdecimal
    rw [if_neg htruth]
    refine ⟨fun _ _ => rfl, fun _ earlier hearlier => ?_, fun _ => rfl⟩
    cases earlier <;> simp [rank] at hearlier
    · exact exists_refutation hinteger
    · exact exists_refutation hdecimal
    · exact exists_refutation htruth

/-- A value is not null. -/
theorem isNull_of_read? {type : TextType} {s : String} {c : Cell} (h : type.read? s = some c) :
    c.isNull = false := by
  cases type with
  | integer | decimal | truth =>
    obtain ⟨_, -, rfl⟩ := Option.map_eq_some_iff.mp h
    rfl
  | text =>
    cases h
    rfl

end TextType

end SourceTables

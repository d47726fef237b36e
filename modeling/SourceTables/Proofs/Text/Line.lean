import Mathlib.Data.List.DropRight
import SourceTables.Text.Blank
import SourceTables.Text.Line

/-!
# `SourceTables.Proofs.Text.Line`: blanks at the ends of texts, and texts that are made of lines

Trimming takes blanks off one end and then off the other, which is the same done to the reversed text. So a
text is trimmed just when neither end is blank, and the blanks that stand around a text make no difference to
what trimming leaves of it.

Lines can be written with a line feed after each, or with one between each two. Cutting the text at its line
feeds gives them back; in the first way it goes on with what follows the last of them.

The theorems:

* `trimList_eq_self_iff`: when a text is trimmed.
* `trimList_pad`: blanks around a text do not matter.
* `split_unlines_append`, `split_intercalate`: the two ways to write lines are undone.
* `trimList_dropReturn`: a carriage return at the end of a line is a blank like others.
-/

set_option autoImplicit false

namespace SourceTables.Text

/-! ### Blanks -/

/-- Blanks are taken off the end as they are off the start of the reversed text. -/
theorem trimRight_eq (cs : List Char) : trimRight cs = (trimLeft cs.reverse).reverse := rfl

/-- Nothing is taken off the start just when no blank stands there. -/
theorem trimLeft_eq_self_iff {cs : List Char} :
    trimLeft cs = cs ↔ ∀ c, cs.head? = some c → isBlank c = false := by
  unfold trimLeft
  cases cs with
  | nil => simp
  | cons c rest => simp [List.dropWhile_eq_self_iff]

/-- Nothing is taken off the end just when no blank stands there. -/
theorem trimRight_eq_self_iff {cs : List Char} :
    trimRight cs = cs ↔ ∀ c, cs.getLast? = some c → isBlank c = false := by
  rw [trimRight_eq, ← List.reverse_inj, List.reverse_reverse, trimLeft_eq_self_iff, List.head?_reverse]

/-- A text is trimmed just when no blank stands at either end. -/
theorem trimList_eq_self_iff {cs : List Char} : trimList cs = cs ↔
    (∀ c, cs.head? = some c → isBlank c = false) ∧ ∀ c, cs.getLast? = some c → isBlank c = false := by
  rw [← trimLeft_eq_self_iff, ← trimRight_eq_self_iff]
  constructor
  · intro h
    -- What was taken off the start cannot come back when more is taken off the end.
    have hsuffix : trimLeft cs <:+ cs := List.dropWhile_suffix isBlank
    have hprefix : trimList cs <+: trimLeft cs := List.rdropWhile_prefix isBlank (trimLeft cs)
    have hleft : trimLeft cs = cs := hsuffix.eq_of_length_le (by
      have hlength := hprefix.length_le
      rwa [h] at hlength)
    exact ⟨hleft, by rwa [trimList, hleft] at h⟩
  · rintro ⟨hleft, hright⟩
    rw [trimList, hleft, hright]

/-- Blanks at the start do not matter. -/
theorem trimLeft_append {left : List Char} (hleft : ∀ c ∈ left, isBlank c = true) (cs : List Char) :
    trimLeft (left ++ cs) = trimLeft cs := List.dropWhile_append_of_pos hleft

/-- Blanks at the end do not matter. -/
theorem trimRight_append (cs : List Char) {right : List Char} (hright : ∀ c ∈ right, isBlank c = true) :
    trimRight (cs ++ right) = trimRight cs := by
  rw [trimRight_eq, List.reverse_append, trimLeft_append fun c hc => hright c (List.mem_reverse.mp hc),
    ← trimRight_eq]

/-- Blanks around a text do not matter. -/
theorem trimList_pad {left right : List Char} (hleft : ∀ c ∈ left, isBlank c = true)
    (hright : ∀ c ∈ right, isBlank c = true) (cs : List Char) :
    trimList (left ++ cs ++ right) = trimList cs := by
  rw [trimList, List.append_assoc, trimLeft_append hleft, trimList, trimLeft, trimLeft, List.dropWhile_append]
  split
  · next hnone =>
    rw [List.dropWhile_eq_nil_iff.mpr hright, List.isEmpty_iff.mp hnone]
  · exact trimRight_append _ hright

/-! ### Lines -/

/-- Lines with a line feed after each. -/
def unlines (lines : List (List Char)) : List Char := lines.flatMap fun line => line ++ ['\n']

/-- A line alone is not cut. -/
theorem split_of_not_mem {line : List Char} (h : '\n' ∉ line) : split (· == '\n') line = [line] := by
  refine split_eq_singleton _ _ fun c hc => ?_
  rw [beq_eq_false_iff_ne]
  rintro rfl
  exact h hc

/-- A line is cut off at its line feed. -/
theorem split_line {line : List Char} (h : '\n' ∉ line) (rest : List Char) :
    split (· == '\n') (line ++ '\n' :: rest) = line :: split (· == '\n') rest := by
  rw [split_append _ _ rfl, split_of_not_mem h]
  rfl

/-- Lines that end with line feeds are cut off before what follows them. -/
theorem split_unlines_append {lines : List (List Char)} (h : ∀ line ∈ lines, '\n' ∉ line)
    (rest : List Char) :
    split (· == '\n') (unlines lines ++ rest) = lines ++ split (· == '\n') rest := by
  induction lines with
  | nil => rfl
  | cons line lines ih =>
    have hline : unlines (line :: lines) ++ rest = line ++ '\n' :: (unlines lines ++ rest) := by
      simp [unlines]
    rw [hline, split_line (h line (.head _)), ih fun line hline => h line (.tail _ hline)]
    rfl

/-- Texts with a separator between each two, where the last one is known. -/
theorem intercalate_concat (separator : List Char) (init : List (List Char)) (last : List Char) :
    separator.intercalate (init ++ [last]) = init.flatMap (· ++ separator) ++ last := by
  induction init with
  | nil => simp
  | cons first rest ih => simp [List.intercalate_cons_of_ne_nil, ih]

/-- Lines with line feeds between them are cut apart. -/
theorem split_intercalate {lines : List (List Char)} (hne : lines ≠ []) (h : ∀ line ∈ lines, '\n' ∉ line) :
    split (· == '\n') (['\n'].intercalate lines) = lines := by
  obtain ⟨init, last, rfl⟩ := (List.eq_nil_or_concat' lines).resolve_left hne
  rw [intercalate_concat, ← unlines,
    split_unlines_append fun line hline => h line (List.mem_append_left _ hline),
    split_of_not_mem (h last (List.mem_append_right _ (.head _)))]

/-- A carriage return at the end of a line is a blank like others. -/
theorem trimList_dropReturn (line : List Char) : trimList (dropReturn line) = trimList line := by
  unfold dropReturn
  split
  · next hlast =>
    obtain ⟨start, rfl⟩ := List.getLast?_eq_some_iff.mp hlast
    rw [List.dropLast_concat]
    have hnone : ∀ c ∈ ([] : List Char), isBlank c = true := nofun
    exact (trimList_pad hnone (List.forall_mem_singleton.mpr rfl) start).symm
  · rfl

end SourceTables.Text

import SourceTables.Text.Split

/-!
# `SourceTables.Text.Blank`: blank characters and trimming

A character is blank when it has the Unicode property `White_Space`. Trimming takes blanks off
both ends, and `words` are the maximal runs of characters that are not blank.

Main statements: `isBlank_of_isWhitespace` (every blank of the core library is blank here) and
`trimList_idem` (a trimmed text stays as it is).
-/

set_option autoImplicit false

namespace SourceTables.Text

/-- The Unicode property `White_Space`. -/
def isBlank (c : Char) : Bool :=
  let n := c.toNat
  (0x09 ≤ n && n ≤ 0x0D) || n == 0x20 || n == 0x85 || n == 0xA0 || n == 0x1680
    || (0x2000 ≤ n && n ≤ 0x200A) || n == 0x2028 || n == 0x2029 || n == 0x202F || n == 0x205F
    || n == 0x3000

/-- A text without the blanks it starts with. -/
def trimLeft (cs : List Char) : List Char := cs.dropWhile isBlank

/-- A text without the blanks it ends with. -/
def trimRight (cs : List Char) : List Char := (cs.reverse.dropWhile isBlank).reverse

/-- A text without the blanks at its ends. -/
def trimList (cs : List Char) : List Char := trimRight (trimLeft cs)

/-- A string without the blanks at its ends. -/
def trim (s : String) : String := String.ofList (trimList s.toList)

/-- Whether a text holds nothing but blanks. -/
def isBlankText (s : String) : Bool := s.toList.all isBlank

/-- The maximal runs of characters that are not blank. -/
def words (s : String) : List String := (runs isBlank s.toList).map String.ofList

/-- Every blank of the core library is blank here. -/
theorem isBlank_of_isWhitespace (c : Char) (h : c.isWhitespace) : isBlank c := by
  simp only [Char.isWhitespace, Bool.or_eq_true, decide_eq_true_eq] at h
  rcases h with ((rfl | rfl) | rfl) | rfl <;> decide

/-- What is left after dropping blanks starts with none. -/
theorem dropWhile_dropWhile (p : Char → Bool) (cs : List Char) :
    (cs.dropWhile p).dropWhile p = cs.dropWhile p := by
  induction cs with
  | nil => rfl
  | cons c rest ih =>
    by_cases h : p c = true
    · simp [h, ih]
    · simp [h]

/-- What is left after dropping blanks at both ends starts with none. -/
theorem trimLeft_trimRight_trimLeft (cs : List Char) :
    trimLeft (trimRight (trimLeft cs)) = trimRight (trimLeft cs) := by
  have hstart : trimLeft (trimLeft cs) = trimLeft cs := dropWhile_dropWhile isBlank cs
  generalize trimLeft cs = left at hstart
  cases left with
  | nil => rfl
  | cons c rest =>
    have hc : isBlank c = false := by
      cases hblank : isBlank c with
      | false => rfl
      | true =>
        have hshorter := congrArg List.length hstart
        have hle := (List.dropWhile_sublist (l := rest) isBlank).length_le
        simp [trimLeft, hblank] at hshorter
        omega
    -- The first character stays: the blanks at the end come after it.
    have hlast : (rest.reverse ++ [c]).dropWhile isBlank
        = rest.reverse.dropWhile isBlank ++ [c] := by
      rw [List.dropWhile_append]
      split
      · next hall => simp [hc, List.isEmpty_iff.mp hall]
      · rfl
    simp [trimRight, trimLeft, hlast, hc]

/-- A trimmed text stays as it is. -/
theorem trimList_idem (cs : List Char) : trimList (trimList cs) = trimList cs := by
  unfold trimList
  rw [trimLeft_trimRight_trimLeft]
  simp only [trimRight, List.reverse_reverse, dropWhile_dropWhile]

/-- A trimmed string stays as it is. -/
theorem trim_trim (s : String) : trim (trim s) = trim s := by
  simp only [trim, String.toList_ofList, trimList_idem]

end SourceTables.Text

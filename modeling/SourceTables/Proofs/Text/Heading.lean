import Mathlib
import SourceTables.Proofs.Text.Line
import SourceTables.Proofs.Text.Name

/-!
# `SourceTables.Proofs.Text.Heading`: names of columns

Columns are named one after another. A column gets the name that it asks for if no earlier column has that, and
otherwise the first numbered one that none of them has. A name that is written in the header may well be the
numbered one of another, so numbers are compared with all names before them, not only with those of the same
base. As the earlier columns are no more than the column's position, so are the numbers that have to be passed
over.

What is said of each column by the columns before it is true of one list of names alone (`HeadedBy.eq`).

The theorems:

* `isHeading_fresh`: a new name is one for the next column.
* `headedBy_headings`: the names of the columns are such ones.
* `length_headings`, `nodup_headings`: there is a name for each column, and no name is repeated.
* `headings_map_trim`: blanks around the cells of a header do not matter.
* `headings_headed`: what the names of the columns are.
-/

set_option autoImplicit false

namespace SourceTables.Text

/-! ### What a column asks for -/

/-- Trimming leaves nothing of a blank text alone. -/
theorem trimList_eq_nil_iff {cs : List Char} : trimList cs = [] ↔ ∀ c ∈ cs, isBlank c = true := by
  have hright : trimList cs = [] ↔ ∀ c ∈ trimLeft cs, isBlank c = true := List.rdropWhile_eq_nil_iff
  rw [hright]
  refine ⟨fun h => ?_, fun h c hc => h c ((List.dropWhile_suffix isBlank).subset hc)⟩
  -- What is left at the start is not blank, so nothing is.
  have hfirst := List.head?_dropWhile_not isBlank cs
  cases hleft : cs.dropWhile isBlank with
  | nil => exact List.dropWhile_eq_nil_iff.mp hleft
  | cons c rest =>
    rw [hleft] at hfirst
    rw [trimLeft, hleft] at h
    exact absurd (h c (.head rest)) (by simpa using hfirst)

theorem trim_isEmpty (s : String) : (trim s).isEmpty = isBlankText s := by
  rw [Bool.eq_iff_iff, String.isEmpty_iff, ← String.toList_eq_nil_iff, trim, String.toList_ofList,
    trimList_eq_nil_iff, isBlankText, List.all_eq_true]

/-- A column without a cell above it is named by its position. -/
theorem headingBase_none (position : Nat) :
    headingBase position none = "column_" ++ toString (position + 1) := rfl

/-- A column is named by the cell above it unless that is blank. -/
theorem headingBase_some (position : Nat) (cell : String) : headingBase position (some cell) =
    if isBlankText cell then "column_" ++ toString (position + 1) else trim cell := by
  simp only [headingBase, Option.getD_some, trim_isEmpty]

theorem headingBase_ne_empty (position : Nat) (cell : Option String) : headingBase position cell ≠ "" := by
  simp only [headingBase]
  split
  · simp
  · next hsome => simpa using hsome

/-! ### What a column gets -/

/-- Whether a column that asks for a name gets some name, given those of the columns before it: the name that it
asks for if none of them has it, and otherwise that with the least number from 2 on with which none of them has
it. -/
def IsHeading (base : String) (earlier : List String) (name : String) : Prop :=
  (base ∉ earlier ∧ name = base) ∨
    base ∈ earlier ∧ ∃ n ≥ 2, name = base ++ "_" ++ toString n ∧ name ∉ earlier ∧
      ∀ m, 2 ≤ m → m < n → base ++ "_" ++ toString m ∈ earlier

namespace IsHeading

variable {base name name' : String} {earlier : List String}

theorem not_mem (h : IsHeading base earlier name) : name ∉ earlier := by
  obtain ⟨hnew, rfl⟩ | ⟨-, n, -, -, hnew, -⟩ := h
  · exact hnew
  · exact hnew

theorem ne_empty (hbase : base ≠ "") (h : IsHeading base earlier name) : name ≠ "" := by
  obtain ⟨-, rfl⟩ | ⟨-, n, -, rfl, -, -⟩ := h
  · exact hbase
  · simp

/-- A column gets one name alone. -/
theorem eq (h : IsHeading base earlier name) (h' : IsHeading base earlier name') : name = name' := by
  obtain ⟨hnew, rfl⟩ | ⟨htaken, n, hn, rfl, hnew, hleast⟩ := h
  · obtain ⟨-, rfl⟩ | ⟨htaken, -⟩ := h'
    · rfl
    · exact absurd htaken hnew
  · obtain ⟨hnew', -⟩ | ⟨-, n', hn', rfl, hnew', hleast'⟩ := h'
    · exact absurd htaken hnew'
    · -- The smaller one of two numbers would be passed over by the other.
      obtain hlt | rfl | hlt := Nat.lt_trichotomy n n'
      · exact absurd (hleast' n hn hlt) hnew
      · rfl
      · exact absurd (hleast n' hn' hlt) hnew'

end IsHeading

/-- A new name is one for the next column. -/
theorem isHeading_fresh (base : String) (earlier : List String) :
    IsHeading base earlier (fresh earlier.contains earlier.length base) := by
  obtain ⟨k, -, heq, hnew, hleast⟩ := fresh_least earlier base
  rw [heq]
  cases k with
  | zero => exact .inl ⟨hnew, rfl⟩
  | succ k =>
    refine .inr ⟨hleast 0 (Nat.succ_pos k), k + 2, by omega, rfl, hnew, fun m hm hlt => ?_⟩
    obtain ⟨j, rfl⟩ := Nat.exists_eq_add_of_le' hm
    exact hleast (j + 1) (by omega)

/-- Whether names are those of columns under a header. -/
structure HeadedBy (header : List String) (width : Nat) (names : List String) : Prop where
  length : names.length = width
  each : ∀ position name, names[position]? = some name →
    IsHeading (headingBase position header[position]?) (names.take position) name

namespace HeadedBy

variable {header names names' : List String} {width : Nat}

/-- The columns under a header have one list of names alone. -/
theorem eq (h : HeadedBy header width names) (h' : HeadedBy header width names') : names = names' := by
  have htake : ∀ position, names.take position = names'.take position := by
    intro position
    induction position with
    | zero => rfl
    | succ position ih =>
      have hsame : names[position]? = names'[position]? := by
        by_cases hlt : position < width
        · have hhere := List.getElem?_eq_getElem (l := names) (h.length.symm ▸ hlt)
          have hhere' := List.getElem?_eq_getElem (l := names') (h'.length.symm ▸ hlt)
          have hname := h.each position _ hhere
          rw [ih] at hname
          rw [hhere, hhere', hname.eq (h'.each position _ hhere')]
        · rw [List.getElem?_eq_none (h.length.symm ▸ Nat.le_of_not_lt hlt),
            List.getElem?_eq_none (h'.length.symm ▸ Nat.le_of_not_lt hlt)]
      rw [List.take_add_one, List.take_add_one, ih, hsame]
  have hall := htake width
  rwa [List.take_of_length_le (Nat.le_of_eq h.length), List.take_of_length_le (Nat.le_of_eq h'.length)] at hall

/-- No name is repeated. -/
theorem nodup (h : HeadedBy header width names) : names.Nodup := by
  refine List.pairwise_iff_getElem.mpr fun i j hi hj hij hsame => ?_
  have hnew := (h.each j names[j] (List.getElem?_eq_getElem hj)).not_mem
  exact hnew (hsame ▸ List.mem_take_iff_getElem.mpr ⟨i, by omega, rfl⟩)

theorem not_mem_empty (h : HeadedBy header width names) : "" ∉ names := by
  intro hmem
  obtain ⟨position, hposition⟩ := List.mem_iff_getElem?.mp hmem
  exact (h.each position "" hposition).ne_empty (headingBase_ne_empty _ _) rfl

end HeadedBy

/-! ### All columns -/

/-- Whether a set has the names of some list, no two of which are the same. -/
structure Holds (taken : Std.HashSet String) (names : List String) : Prop where
  contains : taken.contains = names.contains
  size : taken.size = names.length

namespace Holds

variable {taken : Std.HashSet String} {names : List String}

theorem empty : Holds ∅ [] where
  contains := by
    funext s
    simp
  size := rfl

/-- A new name is put in at the end. -/
theorem insert (h : Holds taken names) {name : String} (hnew : name ∉ names) :
    Holds (taken.insert name) (names ++ [name]) where
  contains := by
    funext s
    rw [Std.HashSet.contains_insert, h.contains]
    by_cases hs : s = name
    · simp [hs]
    · simp [hs, Ne.symm hs]
  size := by
    have hcount : taken.contains name = false := by
      rw [h.contains]
      simpa using hnew
    rw [Std.HashSet.size_insert]
    simp [← Std.HashSet.contains_iff_mem, hcount, h.size]

end Holds

/-- Names that are chosen one after another are as many as asked for. -/
theorem length_headingsFrom (width : Nat) :
    ∀ (taken : Std.HashSet String) (position : Nat) (cells : List String),
      (headingsFrom taken position width cells).length = width := by
  induction width with
  | zero => intro taken position cells; rfl
  | succ width ih =>
    intro taken position cells
    simp [headingsFrom, ih]

/-- Names that are chosen one after another are those of the columns that follow some others. -/
theorem isHeading_headingsFrom (width : Nat) :
    ∀ (before : List String) (taken : Std.HashSet String) (cells : List String), Holds taken before →
      ∀ position name, (headingsFrom taken before.length width cells)[position]? = some name →
        IsHeading (headingBase (before.length + position) cells[position]?)
          (before ++ (headingsFrom taken before.length width cells).take position) name := by
  induction width with
  | zero =>
    intro before taken cells _ position name h
    cases h
  | succ width ih =>
    intro before taken cells hholds position name h
    have hnew := isHeading_fresh (headingBase before.length cells.head?) before
    simp only [headingsFrom, hholds.contains, hholds.size] at h ⊢
    generalize fresh before.contains before.length (headingBase before.length cells.head?) = first at h hnew
    cases position with
    | zero =>
      obtain rfl : first = name := Option.some.inj h
      rw [← List.head?_eq_getElem?]
      simpa using hnew
    | succ position =>
      have hlater := ih (before ++ [first]) (taken.insert first) cells.tail (hholds.insert hnew.not_mem)
        position name
      rw [List.length_append, List.length_singleton, List.getElem?_tail] at hlater
      have hthis := hlater h
      rwa [List.append_assoc, Nat.add_assoc, Nat.add_comm 1 position] at hthis

theorem length_headings (header : List String) (width : Nat) : (headings header width).length = width :=
  length_headingsFrom width ∅ 0 header

/-- The names of the columns under a header are such ones. -/
theorem headedBy_headings (header : List String) (width : Nat) :
    HeadedBy header width (headings header width) where
  length := length_headings header width
  each position name h := by
    have hnext := isHeading_headingsFrom width [] ∅ header .empty position name h
    rwa [List.length_nil, Nat.zero_add, List.nil_append] at hnext

/-- No two columns have the same name. -/
theorem nodup_headings (header : List String) (width : Nat) : (headings header width).Nodup :=
  (headedBy_headings header width).nodup

/-- Blanks around the cells of a header do not matter. -/
theorem headings_map_trim (header : List String) (width : Nat) :
    headings (header.map trim) width = headings header width := by
  have hbase (position : Nat) (cell : Option String) :
      headingBase position (cell.map trim) = headingBase position cell := by
    cases cell with
    | none => rfl
    | some s => simp [headingBase, trim_trim]
  refine ((headedBy_headings header width).eq ⟨length_headings _ _, fun position name h => ?_⟩).symm
  rw [← hbase, ← List.getElem?_map]
  exact (headedBy_headings (header.map trim) width).each position name h

/-- No number is greater than that of the earlier columns. -/
theorem exists_numbered_of_headings (header : List String) (width : Nat) (position : Fin width) :
    ∃ k ≤ position.val, (headings header width)[position.val]? =
      some (numbered (headingBase position header[position.val]?) k) := by
  have hlt : position.val < (headings header width).length := by
    rw [length_headings]
    exact position.isLt
  have hhere := List.getElem?_eq_getElem hlt
  have hname := (headedBy_headings header width).each position _ hhere
  generalize headingBase position header[position.val]? = base at hname ⊢
  obtain ⟨k, hk, heq, -⟩ := fresh_least ((headings header width).take position) base
  refine ⟨k, hk.trans (List.length_take_le _ _), ?_⟩
  rw [hhere, hname.eq (isHeading_fresh base _), heq]

/-- There is a name for each column, none is repeated, and none is empty. Each column has the name that it asks
for unless an earlier one has that, and otherwise this with the least number from 2 on that makes it new; no
list of names but this one is such. A column asks for its trimmed cell, or, if that is blank or missing, to be
named by its position. No more numbers are tried for it than there are columns before it. -/
theorem headings_headed (header : List String) (width : Nat) :
    (∀ names : List String, HeadedBy header width names ↔ names = headings header width) ∧
    (headings header width).length = width ∧
    (headings header width).Nodup ∧
    "" ∉ headings header width ∧
    (∀ position : Fin width, ∃ k ≤ position.val, (headings header width)[position.val]? =
      some (numbered (headingBase position header[position.val]?) k)) ∧
    (∀ position : Nat, headingBase position none = "column_" ++ toString (position + 1)) ∧
    ∀ (position : Nat) (cell : String), headingBase position (some cell) =
      if isBlankText cell then "column_" ++ toString (position + 1) else trim cell := by
  have hheaded := headedBy_headings header width
  exact ⟨fun names => ⟨fun h => h.eq hheaded, fun h => h ▸ hheaded⟩, hheaded.length, hheaded.nodup,
    hheaded.not_mem_empty, exists_numbered_of_headings header width, headingBase_none, headingBase_some⟩

/-- Cells that have the numbered names of others, and a name by position that a cell has. -/
theorem headings_headed_clash :
    headings ["a", "a_2", " a ", "column_5"] 5 = ["a", "a_2", "a_3", "column_5", "column_5_2"] ∧
      (headings ["a", "a_2", " a ", "column_5"] 5).Nodup := by
  have h : HeadedBy ["a", "a_2", " a ", "column_5"] 5 ["a", "a_2", "a_3", "column_5", "column_5_2"] := by
    refine ⟨rfl, fun position name h => ?_⟩
    match position, h with
    | 0, rfl => exact .inl ⟨by decide, by decide⟩
    | 1, rfl => exact .inl ⟨by decide, by decide⟩
    | 2, rfl =>
      refine .inr ⟨by decide, 3, by decide, by decide, by decide, fun m hm hlt => ?_⟩
      obtain rfl : m = 2 := by omega
      decide
    | 3, rfl => exact .inl ⟨by decide, by decide⟩
    | 4, rfl => exact .inr ⟨by decide, 2, by decide, by decide, by decide, fun m hm hlt => by omega⟩
  obtain ⟨heq, -, hnodup, -⟩ := headings_headed ["a", "a_2", " a ", "column_5"] 5
  exact ⟨((heq _).mp h).symm, hnodup⟩

end SourceTables.Text

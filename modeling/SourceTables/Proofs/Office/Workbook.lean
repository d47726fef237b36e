import Mathlib
import SourceTables.Office.Workbook
import SourceTables.Proofs.Outcome

/-!
# `SourceTables.Proofs.Office.Workbook`: cells stand in their columns

The letters at the start of a reference are the digits of a number, one to twenty-six, so that no digit is
zero and `Z` is followed by `AA`. Multiplying and adding stop at the greatest number that is told apart.
Once they have stopped there, they stay: a number that is multiplied by 26 is no less than it was. So
stopping on the way is the same as stopping at the end, and no letters, however many, lead back to a column
that a worksheet has.

The cells of a row are placed one after another into a row that grows as needed. Growing fills with empty
texts, so what a row holds at a column is the text of the last cell that was placed there, or empty.

The theorems:

* `letterValue_eq`: the number of letters, stopped at the end.
* `rowFrom_cases`: a row is placed, or one of its cells lies too far.
* `cells_in_columns`: both for whole worksheets.
-/

set_option autoImplicit false

namespace SourceTables.Office

open Xml (Element)

/-! ### Letters as numbers -/

/-- The letters in their order. -/
def alphabet : List Char := "ABCDEFGHIJKLMNOPQRSTUVWXYZ".toList

/-- The place of a letter in the alphabet, counted from one; letter case does not count. -/
def letterDigit (c : Char) : Nat := alphabet.idxOf c.toUpper + 1

/-- The number of letters whose places are its digits to the base 26. -/
def lettersNumber : List Char → Nat
  | [] => 0
  | c :: rest => letterDigit c * 26 ^ rest.length + lettersNumber rest

/-- The letters at the start of a reference. -/
def leadingLetters (reference : String) : List Char := reference.toList.takeWhile Char.isAlpha

/-- Whether the number of letters is found without a step that leaves the numbers from zero to the greatest:
no letter comes before the first one, and the number is never zero when one is taken off. -/
structure StaysInRange (letters : List Char) : Prop where
  digit : ∀ c ∈ letters, 'A'.toNat ≤ c.toUpper.toNat ∧ c.toUpper.toNat - 'A'.toNat + 1 ≤ 26
  value : ∀ start, start <+: letters → start ≠ [] →
    1 ≤ letterValue 0 start ∧ letterValue 0 start ≤ numberLimit

/-- What a letter counts. -/
theorem digit_of_isAlpha {c : Char} (h : c.isAlpha = true) :
    'A'.toNat ≤ c.toUpper.toNat ∧ c.toUpper.toNat - 'A'.toNat + 1 = letterDigit c ∧
      letterDigit c ≤ 26 := by
  have table : ∀ m : Fin 0x80, (Char.ofNat m.val).isAlpha = true →
      'A'.toNat ≤ (Char.ofNat m.val).toUpper.toNat ∧
        (Char.ofNat m.val).toUpper.toNat - 'A'.toNat + 1 = letterDigit (Char.ofNat m.val) ∧
        letterDigit (Char.ofNat m.val) ≤ 26 := by decide +kernel
  have hascii : c.toNat < 0x80 := by
    have hz : 'z'.val.toNat = 122 := by decide
    have hZ : 'Z'.val.toNat = 90 := by decide
    simp only [Char.isAlpha, Char.isUpper, Char.isLower, Bool.or_eq_true, Bool.and_eq_true,
      decide_eq_true_eq, UInt32.le_iff_toNat_le, ge_iff_le] at h
    show c.val.toNat < 0x80
    omega
  have hrow := table ⟨c.toNat, hascii⟩
  rw [Char.ofNat_toNat] at hrow
  exact hrow h

/-- Numbers that have stopped stay where they are, so that it is enough to stop at the end. -/
theorem letterValue_eq {letters : List Char} (h : ∀ c ∈ letters, c.isAlpha = true) {start : Nat}
    (hstart : start ≤ numberLimit) :
    letterValue start letters
      = min (start * 26 ^ letters.length + lettersNumber letters) numberLimit := by
  induction letters generalizing start with
  | nil =>
    show start = min (start * 1 + 0) numberLimit
    omega
  | cons c rest ih =>
    obtain ⟨-, hdigit, -⟩ := digit_of_isAlpha (h c (.head _))
    have hrest : ∀ c ∈ rest, c.isAlpha = true := fun c hc => h c (.tail _ hc)
    have hstep : letterValue start (c :: rest)
        = letterValue (min (start * 26 + letterDigit c) numberLimit) rest := by
      show letterValue (min (min (start * 26) numberLimit + _) numberLimit) rest = _
      rw [hdigit]
      congr 1
      omega
    rw [hstep, ih hrest (Nat.min_le_right _ _), lettersNumber, List.length_cons]
    have hpow : 1 ≤ 26 ^ rest.length := Nat.one_le_pow _ _ (by decide)
    have hsum : (start * 26 + letterDigit c) * 26 ^ rest.length
        = start * 26 ^ (rest.length + 1) + letterDigit c * 26 ^ rest.length := by
      rw [Nat.add_mul, Nat.pow_succ, Nat.mul_assoc, Nat.mul_comm 26]
    by_cases hle : start * 26 + letterDigit c ≤ numberLimit
    · rw [Nat.min_eq_left hle, hsum, Nat.add_assoc]
    · -- Both have stopped, as neither factor makes a number smaller.
      have hlimit : numberLimit ≤ numberLimit * 26 ^ rest.length := Nat.le_mul_of_pos_right _ hpow
      have hbeyond : start * 26 + letterDigit c ≤ (start * 26 + letterDigit c) * 26 ^ rest.length :=
        Nat.le_mul_of_pos_right _ hpow
      rw [Nat.min_eq_right (Nat.le_of_not_le hle)]
      omega

theorem one_le_lettersNumber {letters : List Char} (h : letters ≠ []) : 1 ≤ lettersNumber letters := by
  cases letters with
  | nil => exact absurd rfl h
  | cons c rest =>
    have hpow : 1 ≤ 26 ^ rest.length := Nat.one_le_pow _ _ (by decide)
    have hdigit : 1 ≤ letterDigit c := Nat.le_add_left 1 _
    have hfirst : 1 ≤ letterDigit c * 26 ^ rest.length := Nat.mul_le_mul hdigit hpow
    rw [lettersNumber]
    omega

theorem isAlpha_of_mem_leadingLetters (reference : String) :
    ∀ c ∈ leadingLetters reference, c.isAlpha = true :=
  fun _ hc => List.mem_takeWhile_imp hc

theorem staysInRange_leadingLetters (reference : String) : StaysInRange (leadingLetters reference) where
  digit c hc := by
    obtain ⟨hle, hdigit, hbound⟩ := digit_of_isAlpha (isAlpha_of_mem_leadingLetters reference c hc)
    omega
  value start hstart hne := by
    have halpha : ∀ c ∈ start, c.isAlpha = true :=
      fun c hc => isAlpha_of_mem_leadingLetters reference c (hstart.subset hc)
    have hone := one_le_lettersNumber hne
    have hlimit : 1 ≤ numberLimit := by decide
    rw [letterValue_eq halpha (Nat.zero_le _)]
    omega

/-- There is no column just when there is no letter. -/
theorem columnIndex?_eq (reference : String) :
    columnIndex? reference = if leadingLetters reference = [] then none
      else some (min (lettersNumber (leadingLetters reference)) numberLimit - 1) := by
  have hvalue := letterValue_eq (isAlpha_of_mem_leadingLetters reference) (Nat.zero_le _)
  rw [Nat.zero_mul, Nat.zero_add] at hvalue
  rw [columnIndex?]
  split
  · next hnil =>
    have hletters : leadingLetters reference = [] := hnil
    rw [if_pos hletters]
  · next hne =>
    have hletters : leadingLetters reference ≠ [] := hne
    rw [if_neg hletters, ← hvalue]
    rfl

theorem leadingLetters_eq_nil_iff {reference : String} :
    leadingLetters reference = [] ↔ ∀ c, reference.toList.head? = some c → c.isAlpha = false := by
  unfold leadingLetters
  cases reference.toList with
  | nil => simp
  | cons c rest => by_cases hc : c.isAlpha <;> simp [hc]

/-! ### Cells in their row -/

/-- The column of a cell that is number `position` of its row. -/
def columnOf (position : Nat) (cell : Element) : Nat :=
  ((cell.value? "r").bind columnIndex?).getD position

/-- Whether texts are what the cells of a row, the first of which is number `position`, make of the texts
`before`: as many as it takes to reach the last column, at each column the text of the last cell that stands
there, and elsewhere what was there before. -/
structure PlacedFrom (shared before : Array String) (position : Nat) (cells : List Element)
    (texts : Array String) : Prop where
  size_eq : texts.size
    = ((cells.mapIdx fun i cell => columnOf (position + i) cell).map (· + 1)).foldr max before.size
  last : ∀ i cell, cells[i]? = some cell →
    (∀ j later, i < j → cells[j]? = some later →
      columnOf (position + j) later ≠ columnOf (position + i) cell) →
    texts[columnOf (position + i) cell]? = some (cellValue shared cell)
  other : ∀ k < texts.size, (∀ i cell, cells[i]? = some cell → columnOf (position + i) cell ≠ k) →
    texts[k]? = some (before[k]?.getD "")

theorem size_place (row : Array String) (column : Nat) (text : String) :
    (place row column text).size = max (column + 1) row.size := by
  simp only [place, Array.size_setIfInBounds, Array.size_append, Array.size_replicate]
  omega

theorem getElem?_place_self (row : Array String) (column : Nat) (text : String) :
    (place row column text)[column]? = some text := by
  have hsize := size_place row column text
  rw [place, Array.size_setIfInBounds] at hsize
  rw [place, Array.getElem?_setIfInBounds_self_of_lt (by omega)]

/-- Growing makes no difference, as what is not there counts as empty. -/
theorem getD_place {row : Array String} {column k : Nat} (h : k ≠ column) (text : String) :
    (place row column text)[k]?.getD "" = row[k]?.getD "" := by
  rw [place, Array.getElem?_setIfInBounds_ne h.symm, Array.getElem?_append]
  split
  · rfl
  · next hk =>
    rw [Array.getElem?_eq_none (Nat.le_of_not_lt hk), Array.getElem?_replicate]
    split <;> rfl

theorem le_foldr_max (ns : List Nat) (n : Nat) : n ≤ ns.foldr max n := by
  induction ns with
  | nil => exact Nat.le_refl n
  | cons m ns ih => exact Nat.le_trans ih (Nat.le_max_right _ _)

theorem foldr_max_max (ns : List Nat) (m n : Nat) :
    ns.foldr max (max m n) = max m (ns.foldr max n) := by
  induction ns with
  | nil => rfl
  | cons k ns ih =>
    rw [List.foldr_cons, List.foldr_cons, ih]
    omega

/-- A cell is placed, and then the ones after it. -/
theorem PlacedFrom.cons {shared before texts : Array String} {position : Nat} {cell : Element}
    {rest : List Element}
    (h : PlacedFrom shared (place before (columnOf position cell) (cellValue shared cell)) (position + 1)
      rest texts) : PlacedFrom shared before position (cell :: rest) texts := by
  have hnext (i : Nat) : position + (i + 1) = position + 1 + i := by omega
  have hsize := h.size_eq
  rw [size_place] at hsize
  have hcolumn : columnOf position cell < texts.size := by
    rw [hsize]
    exact Nat.lt_of_lt_of_le (Nat.le_max_left _ _) (le_foldr_max _ _)
  refine ⟨?_, ?_, ?_⟩
  · have hcolumns : (fun i c => columnOf (position + (i + 1)) c) = fun i c => columnOf (position + 1 + i) c := by
      funext i c
      rw [hnext i]
    rw [hsize, foldr_max_max, List.mapIdx_cons, List.map_cons, List.foldr_cons, hcolumns]
    rfl
  · intro i c hi hlast
    cases i with
    | zero =>
      obtain rfl : cell = c := by simpa using hi
      -- No later cell stands there, so the text is still there at the end.
      have hkept := h.other _ hcolumn fun j later hj => by
        have hne := hlast (j + 1) later (Nat.succ_pos j) (by simpa using hj)
        rwa [hnext j] at hne
      rw [Nat.add_zero, hkept, getElem?_place_self]
      rfl
    | succ i =>
      rw [hnext i]
      refine h.last i c (by simpa using hi) fun j later hij hj => ?_
      have hne := hlast (j + 1) later (Nat.succ_lt_succ hij) (by simpa using hj)
      rwa [hnext j, hnext i] at hne
  · intro k hk hnone
    have hcell : k ≠ columnOf position cell := fun heq =>
      hnone 0 cell (by simp) (by rw [Nat.add_zero, heq])
    have hkept := h.other k hk fun i c hi => by
      have hne := hnone (i + 1) c (by simpa using hi)
      rwa [hnext i] at hne
    rw [hkept, getD_place hcell]

/-- Cells are placed, or the first one that lies too far is told. -/
theorem rowFrom_cases (shared before : Array String) (position : Nat) (cells : List Element) :
    (∃ i cell, cells[i]? = some cell ∧ columnLimit ≤ columnOf (position + i) cell ∧
      rowFrom shared before position cells = .error ⟨cell.value? "r"⟩) ∨
    (∀ i cell, cells[i]? = some cell → columnOf (position + i) cell < columnLimit) ∧
      ∃ texts, rowFrom shared before position cells = .ok texts ∧
        PlacedFrom shared before position cells texts := by
  induction cells generalizing before position with
  | nil =>
    refine .inr ⟨by simp, before, rfl, rfl, by simp, ?_⟩
    intro k hk _
    rw [Array.getElem?_eq_getElem hk]
    rfl
  | cons cell rest ih =>
    have hnext (i : Nat) : position + (i + 1) = position + 1 + i := by omega
    have hrow : rowFrom shared before position (cell :: rest)
        = if columnLimit ≤ columnOf position cell then .error ⟨cell.value? "r"⟩
          else rowFrom shared (place before (columnOf position cell) (cellValue shared cell))
            (position + 1) rest := rfl
    by_cases hfar : columnLimit ≤ columnOf position cell
    · exact .inl ⟨0, cell, rfl, hfar, by rw [hrow, if_pos hfar]⟩
    · rw [hrow, if_neg hfar]
      obtain ⟨i, c, hi, hc, herror⟩ | ⟨hnear, texts, hok, hplaced⟩ :=
        ih (place before (columnOf position cell) (cellValue shared cell)) (position + 1)
      · exact .inl ⟨i + 1, c, by simpa using hi, by rwa [hnext i], herror⟩
      · refine .inr ⟨?_, texts, hok, hplaced.cons⟩
        intro i c hi
        cases i with
        | zero =>
          obtain rfl : cell = c := by simpa using hi
          exact Nat.lt_of_not_le hfar
        | succ i =>
          rw [hnext i]
          exact hnear i c (by simpa using hi)

/-! ### Worksheets -/

/-- The rows of a worksheet. -/
def rowsOf (sheet : Element) : List Element :=
  match (sheet.named "sheetData").head? with
  | none => []
  | some data => data.named "row"

/-- Whether a cell of a worksheet stands past the last column. -/
def LiesTooFar (sheet cell : Element) : Prop :=
  ∃ row ∈ rowsOf sheet, ∃ i, (row.named "c")[i]? = some cell ∧ columnLimit ≤ columnOf i cell

/-- Whether texts are the row that cells make: as long as the last column that one of them stands in, at each
column the text of the last cell that stands there, and empty where none does. -/
structure Placed (shared : Array String) (cells : List Element) (texts : List String) : Prop where
  length_eq : texts.length = ((cells.mapIdx columnOf).map (· + 1)).foldr max 0
  last : ∀ i cell, cells[i]? = some cell →
    (∀ j later, i < j → cells[j]? = some later → columnOf j later ≠ columnOf i cell) →
    texts[columnOf i cell]? = some (cellValue shared cell)
  empty : ∀ k < texts.length, (∀ i cell, cells[i]? = some cell → columnOf i cell ≠ k) →
    texts[k]? = some ""

/-- Cells that are placed in an empty row make that row. -/
theorem placed_toList {shared : Array String} {cells : List Element} {texts : Array String}
    (h : PlacedFrom shared #[] 0 cells texts) : Placed shared cells texts.toList := by
  obtain ⟨hsize, hlast, hother⟩ := h
  simp only [Nat.zero_add] at hsize hlast hother
  refine ⟨?_, ?_, ?_⟩
  · rw [Array.length_toList, hsize]
    rfl
  · intro i cell hi hlater
    rw [Array.getElem?_toList]
    exact hlast i cell hi hlater
  · intro k hk hnone
    rw [Array.getElem?_toList]
    exact hother k (by rwa [Array.length_toList] at hk) hnone

theorem sheetGrid_eq (shared : Array String) (sheet : Element) :
    sheetGrid shared sheet
      = (rowsOf sheet).mapM fun row => (rowFrom shared #[] 0 (row.named "c")).map Array.toList := by
  unfold sheetGrid rowsOf
  cases (sheet.named "sheetData").head? <;> rfl

/-- The rows of a worksheet are placed, or one of its cells lies too far. -/
theorem sheetGrid_cases (shared : Array String) (sheet : Element) :
    (∃ cell, LiesTooFar sheet cell ∧ sheetGrid shared sheet = .error ⟨cell.value? "r"⟩) ∨
    (∀ cell, ¬ LiesTooFar sheet cell) ∧ ∃ grid, sheetGrid shared sheet = .ok grid ∧
      List.Forall₂ (fun row texts => Placed shared (row.named "c") texts) (rowsOf sheet) grid := by
  rw [sheetGrid_eq]
  unfold LiesTooFar
  induction rowsOf sheet with
  | nil => exact .inr ⟨by simp, [], rfl, .nil⟩
  | cons row rows ih =>
    rw [List.mapM_cons]
    have hrow := rowFrom_cases shared #[] 0 (row.named "c")
    simp only [Nat.zero_add] at hrow
    obtain ⟨i, cell, hi, hfar, herror⟩ | ⟨hnear, texts, hok, hplaced⟩ := hrow
    · exact .inl ⟨cell, ⟨row, .head _, i, hi, hfar⟩, by rw [herror]; rfl⟩
    · obtain ⟨cell, ⟨row', hrow', hcell⟩, herror⟩ | ⟨hnear', grid, hgrid, hrows⟩ := ih
      · exact .inl ⟨cell, ⟨row', .tail _ hrow', hcell⟩, by rw [hok, herror]; rfl⟩
      · refine .inr ⟨?_, texts.toList :: grid, by rw [hok, hgrid]; rfl, .cons (placed_toList hplaced) hrows⟩
        rintro cell ⟨row', hrow', i, hi, hfar⟩
        rcases List.mem_cons.mp hrow' with rfl | hrow'
        · exact absurd hfar (Nat.not_le_of_lt (hnear i cell hi))
        · exact hnear' cell ⟨row', hrow', i, hi, hfar⟩

/-- A reference tells no column just when it starts with no letter, and otherwise the one before the number of
its letters, which stops at the greatest number and is found within the range of numbers. A worksheet fails
just when one of its cells lies too far, and then its conversion does; otherwise each row holds its cells in
their columns. -/
theorem cells_in_columns :
    (∀ reference : String,
      (columnIndex? reference = none ↔ ∀ c, reference.toList.head? = some c → c.isAlpha = false) ∧
      columnIndex? reference = (if leadingLetters reference = [] then none
        else some (min (lettersNumber (leadingLetters reference)) numberLimit - 1)) ∧
      StaysInRange (leadingLetters reference)) ∧
    (∀ (shared : Array String) (sheet : Element),
      ((∃ e, sheetGrid shared sheet = .error e) ↔ ∃ cell, LiesTooFar sheet cell) ∧
      ((∃ cell, LiesTooFar sheet cell ∧ sheetGrid shared sheet = .error ⟨cell.value? "r"⟩) ∨
        ∃ grid, sheetGrid shared sheet = .ok grid ∧
          List.Forall₂ (fun row texts => Placed shared (row.named "c") texts) (rowsOf sheet) grid)) ∧
    ∀ (p : Package) (shared : Array String) (sheet : SheetRef),
      sheetRows? p shared sheet = p.root? sheet.part >>= fun root? => match root? with
        | none => .ok none
        | some root => match sheetGrid shared root with
          | .ok grid => .ok (some grid)
          | .error e => .error (.conversion p.path p.format.id e.message) := by
  refine ⟨fun reference => ⟨?_, columnIndex?_eq reference, staysInRange_leadingLetters reference⟩,
    fun shared sheet => ?_, fun p shared sheet => rfl⟩
  · rw [columnIndex?_eq, ← leadingLetters_eq_nil_iff]
    split
    · next hnil => exact iff_of_true rfl hnil
    · next hne => exact iff_of_false nofun hne
  · obtain ⟨cell, hfar, herror⟩ | ⟨hnear, grid, hok, hplaced⟩ := sheetGrid_cases shared sheet
    · exact ⟨iff_of_true ⟨_, herror⟩ ⟨cell, hfar⟩, .inl ⟨cell, hfar, herror⟩⟩
    · refine ⟨iff_of_false ?_ fun ⟨cell, hfar⟩ => hnear cell hfar, .inr ⟨grid, hok, hplaced⟩⟩
      rintro ⟨e, herror⟩
      rw [hok] at herror
      cases herror

/-- The last column of a worksheet, the one after it, and letters whose number stops at the greatest one. -/
example : columnIndex? "xfd1" = some 16383 ∧ columnIndex? "XFE1" = some columnLimit ∧
    columnIndex? "ZZZZZZZZZZZZZZZ1" = some (numberLimit - 1) ∧ columnIndex? "12" = none := by decide

end SourceTables.Office

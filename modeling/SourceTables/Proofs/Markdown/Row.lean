import SourceTables.Markdown
import SourceTables.Proofs.Text.Line

/-!
# `SourceTables.Proofs.Markdown.Row`: rows that are written and read back

Cells are written with `\|` for each pipe in them, and with pipes between them. The escape of a text is read
back one character at a time, whatever comes after it, as long as the text does not end with a backslash and
a pipe follows. So cutting a row at its pipes gives the cells back, if a blank stands between a backslash
that ends a cell and the next pipe. Without it the row is also that of other cells.

In a row with borders the borders are taken off before that, and the last cell may end with a backslash. In a
row without them the same is tried, and a pipe that ends the last cell is taken for a border: the backslash
that was to make it a part of the cell stays.

The theorems:

* `cut_escape_append`: the escape of a text is read back, at the start of any row.
* `cells_line`: a row with borders is read back.
* `cells_bareRow`: a row without borders is read back but for a pipe at its end.
-/

set_option autoImplicit false

namespace SourceTables.Markdown

/-- A text with a backslash before each pipe. -/
def escape (cs : List Char) : List Char := cs.flatMap fun c => if c = '|' then ['\\', '|'] else [c]

@[simp] theorem escape_nil : escape [] = [] := rfl

@[simp] theorem escape_pipe (cs : List Char) : escape ('|' :: cs) = '\\' :: '|' :: escape cs := rfl

theorem escape_cons {c : Char} (h : c ≠ '|') (cs : List Char) : escape (c :: cs) = c :: escape cs := by
  simp [escape, h]

theorem escape_append (xs ys : List Char) : escape (xs ++ ys) = escape xs ++ escape ys :=
  List.flatMap_append

/-- A text without pipes is its own escape. -/
theorem escape_of_not_mem {cs : List Char} (h : '|' ∉ cs) : escape cs = cs := by
  induction cs with
  | nil => rfl
  | cons c cs ih =>
    rw [List.mem_cons, not_or] at h
    rw [escape_cons (Ne.symm h.1), ih h.2]

/-- Nothing but backslashes is added to a text. -/
theorem mem_escape {c : Char} (hc : c ≠ '\\') {cs : List Char} : c ∈ escape cs ↔ c ∈ cs := by
  induction cs with
  | nil => rfl
  | cons d cs ih =>
    by_cases hd : d = '|'
    · rw [hd, escape_pipe, List.mem_cons, List.mem_cons, List.mem_cons, ih, or_iff_right hc]
    · rw [escape_cons hd, List.mem_cons, List.mem_cons, ih]

/-- An escape starts like the text, but with a backslash for a pipe. -/
theorem head?_escape_append (c : Char) (cs rest : List Char) :
    (escape (c :: cs) ++ rest).head? = some (if c = '|' then '\\' else c) := by
  split
  · next hc => rw [hc, escape_pipe, List.cons_append, List.head?_cons]
  · next hc => rw [escape_cons hc, List.cons_append, List.head?_cons]

/-! ### Cutting -/

/-- A pipe ends a cell. -/
@[simp] theorem cut_pipe (rest : List Char) : cut ('|' :: rest) = [] :: cut rest := by
  rw [cut, if_pos rfl]
  simp

theorem cut_cons {c : Char} {rest : List Char} (hc : c ≠ '|') (h : c = '\\' → rest.head? ≠ some '|') :
    cut (c :: rest) = prependTo c (cut rest) := by
  rw [cut, if_neg hc]
  rintro rest' rfl rfl
  exact h rfl rfl

/-- The escape of a text is read back, and what comes after it is cut as it would be alone. -/
theorem cut_escape_append {text rest first : List Char} {more : List (List Char)}
    (h : text.getLast? = some '\\' → rest.head? ≠ some '|') (hrest : cut rest = first :: more) :
    cut (escape text ++ rest) = (text ++ first) :: more := by
  induction text with
  | nil => exact hrest
  | cons c text ih =>
    have ih := ih fun hlast => h (by rw [List.getLast?_cons, hlast]; rfl)
    by_cases hc : c = '|'
    · subst hc
      rw [escape_pipe, List.cons_append, List.cons_append, cut, ih]
      rfl
    · rw [escape_cons hc, List.cons_append, cut_cons hc, ih]
      · rfl
      · -- A backslash is followed by the next character of the text, or it is the last one.
        rintro rfl
        cases text with
        | nil => exact h rfl
        | cons d text =>
          rw [head?_escape_append]
          split
          · decide
          · next hd => rwa [ne_eq, Option.some_inj]

/-- The escape of a text is one cell. -/
theorem cut_escape (text : List Char) : cut (escape text) = [text] := by
  have hcut : cut (escape text ++ []) = [text ++ []] := cut_escape_append (by simp) rfl
  rwa [List.append_nil, List.append_nil] at hcut

/-- The escape of a text is a cell that ends at a pipe, unless it ends with a backslash. -/
theorem cut_escape_pipe {text : List Char} (h : text.getLast? ≠ some '\\') (rest : List Char) :
    cut (escape text ++ '|' :: rest) = text :: cut rest := by
  have hcut : cut (escape text ++ '|' :: rest) = (text ++ []) :: cut rest :=
    cut_escape_append (fun hlast => absurd hlast h) (cut_pipe rest)
  rwa [List.append_nil] at hcut

/-! ### Rows with borders -/

/-- Blanks around a text in a line. -/
structure Padding where
  left : List Char
  right : List Char
  isBlank : ∀ c ∈ left ++ right, Text.isBlank c = true
  inLine : '\n' ∉ left ++ right

/-- A text with the blanks around it. -/
def Padding.around (padding : Padding) (cs : List Char) : List Char := padding.left ++ cs ++ padding.right

theorem Padding.trimList_around (padding : Padding) (cs : List Char) :
    Text.trimList (padding.around cs) = Text.trimList cs :=
  Text.trimList_pad (fun c hc => padding.isBlank c (List.mem_append_left _ hc))
    (fun c hc => padding.isBlank c (List.mem_append_right _ hc)) cs

theorem Padding.not_mem_around {c : Char} {padding : Padding} {cs : List Char}
    (hpadding : c ∉ padding.left ++ padding.right) (hcs : c ∉ cs) : c ∉ padding.around cs := by
  simp only [List.mem_append, not_or] at hpadding
  simp only [Padding.around, List.mem_append, not_or]
  exact ⟨⟨hpadding.1, hcs⟩, hpadding.2⟩

/-- Blanks need no escape. -/
theorem Padding.around_escape (padding : Padding) (cs : List Char) :
    padding.around (escape cs) = escape (padding.around cs) := by
  have hpipe (blanks : List Char) (h : ∀ c ∈ blanks, c ∈ padding.left ++ padding.right) :
      escape blanks = blanks :=
    escape_of_not_mem fun hmem => absurd (padding.isBlank _ (h _ hmem)) (by decide)
  rw [Padding.around, Padding.around, escape_append, escape_append,
    hpipe _ fun _ => List.mem_append_left _, hpipe _ fun _ => List.mem_append_right _]

/-- A cell as it is written in a row. -/
structure WrittenCell where
  text : List Char
  padding : Padding
  trimmed : Text.trimList text = text
  inLine : '\n' ∉ text

/-- Whether a cell does not end with a backslash where it is written, so that a pipe can follow. -/
def WrittenCell.IsApart (cell : WrittenCell) : Prop :=
  cell.text.getLast? = some '\\' → cell.padding.right ≠ []

instance (cell : WrittenCell) : Decidable cell.IsApart :=
  inferInstanceAs (Decidable (cell.text.getLast? = some '\\' → cell.padding.right ≠ []))

theorem WrittenCell.IsApart.getLast?_around {cell : WrittenCell} (h : cell.IsApart) :
    (cell.padding.around cell.text).getLast? ≠ some '\\' := by
  have hblank (blanks : List Char) (h : ∀ c ∈ blanks, c ∈ cell.padding.left ++ cell.padding.right) :
      blanks.getLast? ≠ some '\\' :=
    fun hlast => absurd (cell.padding.isBlank _ (h _ (List.mem_of_getLast? hlast))) (by decide)
  unfold Padding.around
  -- The last character is a blank, unless it is the last one of the text and no blank comes after it.
  by_cases hright : cell.padding.right = []
  · rw [hright, List.append_nil]
    by_cases htext : cell.text = []
    · rw [htext, List.append_nil]
      exact hblank _ fun _ => List.mem_append_left _
    · rw [List.getLast?_append_of_ne_nil _ htext]
      exact fun hlast => h hlast hright
  · rw [List.getLast?_append_of_ne_nil _ hright]
    exact hblank _ fun _ => List.mem_append_right _

/-- A row as it is written with borders. -/
structure WrittenRow where
  cells : List WrittenCell
  padding : Padding
  nonempty : cells ≠ []
  apart : ∀ cell ∈ cells.dropLast, cell.IsApart

/-- The line of a row. -/
def WrittenRow.line (row : WrittenRow) : List Char :=
  row.padding.around ('|' :: row.cells.flatMap fun cell => cell.padding.around (escape cell.text) ++ ['|'])

/-- Between the borders stand the cells, each but the last with a pipe after it. -/
theorem WrittenRow.exists_content (row : WrittenRow) : ∃ content,
    row.line = row.padding.around ('|' :: content ++ ['|']) ∧
      cut content = row.cells.map fun cell => cell.padding.around cell.text := by
  obtain ⟨init, last, hcells⟩ := (List.eq_nil_or_concat' row.cells).resolve_left row.nonempty
  refine ⟨(init.flatMap fun cell => cell.padding.around (escape cell.text) ++ ['|'])
    ++ last.padding.around (escape last.text), by simp [WrittenRow.line, hcells], ?_⟩
  -- No pipe follows the last cell any more, so it may end with a backslash.
  have hapart := row.apart
  rw [hcells, List.dropLast_concat] at hapart
  rw [hcells]
  clear hcells
  induction init with
  | nil => simp [Padding.around_escape, cut_escape]
  | cons cell init ih =>
    rw [List.flatMap_cons, List.append_assoc, List.append_assoc, List.singleton_append,
      Padding.around_escape, cut_escape_pipe (hapart cell (.head _)).getLast?_around,
      ih fun cell hcell => hapart cell (.tail _ hcell)]
    rfl

/-- A row with borders is read back. -/
theorem cells_line (row : WrittenRow) : cells row.line = row.cells.map (·.text) := by
  obtain ⟨content, hline, hcut⟩ := row.exists_content
  have htrim : Text.trimList row.line = '|' :: content ++ ['|'] := by
    rw [hline, Padding.trimList_around, Text.trimList_eq_self_iff, List.getLast?_concat]
    exact ⟨by rintro c ⟨⟩; decide, by rintro c ⟨⟩; decide⟩
  rw [cells, htrim, List.cons_append, dropLeftBorder, dropRightBorder, List.getLast?_concat, if_pos rfl,
    List.dropLast_concat, hcut, List.map_map]
  exact List.map_congr_left fun cell _ => (cell.padding.trimList_around cell.text).trans cell.trimmed

/-! ### Rows without borders -/

/-- A row as it is written without borders. -/
def bareRow (texts : List (List Char)) : List Char := [' ', '|', ' '].intercalate (texts.map escape)

/-- What is read of the last cell of such a row: a pipe at its end is taken for a border, and its backslash
stays. -/
def misread (text : List Char) : List Char :=
  if text.getLast? = some '|' then text.dropLast ++ ['\\'] else text

theorem dropRightBorder_escape {text : List Char} (hne : text ≠ []) (front : List Char) :
    dropRightBorder (front ++ escape text) = front ++ escape (misread text) := by
  obtain ⟨start, c, rfl⟩ := (List.eq_nil_or_concat' text).resolve_left hne
  by_cases hc : c = '|'
  · -- The border that is dropped is the pipe of the escape.
    subst hc
    have hline : front ++ escape (start ++ ['|']) = front ++ escape start ++ ['\\'] ++ ['|'] := by
      simp [escape_append]
    rw [hline, dropRightBorder, List.getLast?_concat, if_pos rfl, List.dropLast_concat, misread,
      List.getLast?_concat, if_pos rfl, List.dropLast_concat, escape_append, List.append_assoc]
    rfl
  · have hline : front ++ escape (start ++ [c]) = front ++ escape start ++ [c] := by
      simp [escape_append, escape_cons hc]
    rw [misread, List.getLast?_concat, if_neg (by simpa using hc), hline, dropRightBorder,
      List.getLast?_concat, if_neg (by simpa using hc)]

/-- The cells of such a row and blanks at its start, for any last cell. -/
theorem map_trimList_cut {lead : List Char} (hlead : ∀ c ∈ lead, c = ' ') (init : List (List Char))
    (last : List Char) :
    (cut (lead ++ ((init.map escape).flatMap (· ++ [' ', '|', ' ']) ++ escape last))).map Text.trimList
      = (init ++ [last]).map Text.trimList := by
  have hblank {lead : List Char} (hlead : ∀ c ∈ lead, c = ' ') : ∀ c ∈ lead, Text.isBlank c = true :=
    fun c hc => by rw [hlead c hc]; decide
  have hescape {lead : List Char} (hlead : ∀ c ∈ lead, c = ' ') : escape lead = lead :=
    escape_of_not_mem fun hmem => absurd (hlead _ hmem) (by decide)
  induction init generalizing lead with
  | nil =>
    have hnone : ∀ c ∈ ([] : List Char), Text.isBlank c = true := nofun
    have hpad := Text.trimList_pad (hblank hlead) hnone last
    rw [List.append_nil] at hpad
    rw [List.map_nil, List.flatMap_nil, List.nil_append, List.nil_append, ← hescape hlead, ← escape_append,
      cut_escape, List.map_singleton, List.map_singleton, hpad]
  | cons text init ih =>
    -- The blank after a pipe is at the start of what is left.
    have hline : lead ++ (((text :: init).map escape).flatMap (· ++ [' ', '|', ' ']) ++ escape last)
        = escape (lead ++ text ++ [' '])
          ++ '|' :: ([' '] ++ ((init.map escape).flatMap (· ++ [' ', '|', ' ']) ++ escape last)) := by
      simp [escape_append, hescape hlead, escape_cons (c := ' ') (by decide)]
    rw [hline, cut_escape_pipe (by simp), List.map_cons,
      Text.trimList_pad (hblank hlead) (List.forall_mem_singleton.mpr rfl) text, ih (by simp)]
    rfl

/-- An escape ends like the text. -/
theorem getLast?_escape (cs : List Char) : (escape cs).getLast? = cs.getLast? := by
  obtain rfl | ⟨start, c, rfl⟩ := List.eq_nil_or_concat' cs
  · rfl
  · by_cases hc : c = '|'
    · simp [escape_append, hc]
    · simp [escape_append, escape_cons hc]

theorem misread_eq_self_iff {text : List Char} : misread text = text ↔ text.getLast? ≠ some '|' := by
  unfold misread
  split
  · next hlast =>
    refine iff_of_false (fun heq => ?_) (not_not_intro hlast)
    rw [← heq, List.getLast?_concat] at hlast
    exact absurd hlast (by decide)
  · next hlast => exact iff_of_true rfl hlast

theorem trimList_misread {text : List Char} (h : Text.trimList text = text) :
    Text.trimList (misread text) = misread text := by
  unfold misread
  split
  · rw [Text.trimList_eq_self_iff] at h ⊢
    refine ⟨fun c hc => ?_, fun c hc => ?_⟩
    · match text, hc with
      -- Nothing is left of a text that is one pipe, and the backslash is all there is.
      | [], hc | [_], hc =>
        obtain rfl : '\\' = c := by simpa using hc
        decide
      | d :: e :: rest, hc => exact h.1 c (by simpa using hc)
    · obtain rfl : '\\' = c := by simpa using hc
      decide
  · exact h

theorem bareRow_concat (init : List (List Char)) (last : List Char) :
    bareRow (init ++ [last]) = (init.map escape).flatMap (· ++ [' ', '|', ' ']) ++ escape last := by
  rw [bareRow, List.map_append, List.map_singleton, Text.intercalate_concat]

theorem dropLeftBorder_of_head? {cs : List Char} (h : cs.head? ≠ some '|') : dropLeftBorder cs = cs := by
  unfold dropLeftBorder
  split
  · exact absurd rfl h
  · rfl

/-- A row without borders does not start with a pipe, and is trimmed like its cells. -/
theorem bareRow_ends {init : List (List Char)} {last : List Char}
    (h : ∀ text ∈ init ++ [last], text ≠ [] ∧ Text.trimList text = text) :
    dropLeftBorder (bareRow (init ++ [last])) = bareRow (init ++ [last]) ∧
      Text.trimList (bareRow (init ++ [last])) = bareRow (init ++ [last]) := by
  obtain ⟨c, hhead, hpipe, hblank⟩ : ∃ c, (bareRow (init ++ [last])).head? = some c ∧ c ≠ '|' ∧
      Text.isBlank c = false := by
    obtain ⟨first, more, hfirst⟩ : ∃ first more, init ++ [last] = first :: more :=
      List.exists_cons_of_ne_nil (by simp)
    obtain ⟨hne, htrim⟩ := h first (by rw [hfirst]; exact .head _)
    obtain ⟨c, cs, rfl⟩ := List.exists_cons_of_ne_nil hne
    obtain ⟨rest, hrow⟩ : ∃ rest, bareRow ((c :: cs) :: more) = escape (c :: cs) ++ rest := by
      cases more with
      | nil => exact ⟨[], by simp [bareRow]⟩
      | cons next more => exact ⟨_, by
          rw [bareRow, List.map_cons, List.intercalate_cons_of_ne_nil (by simp), List.append_assoc]⟩
    refine ⟨_, by rw [hfirst, hrow, head?_escape_append], ?_⟩
    -- A backslash stands for a pipe here, and neither it nor any other character is a blank.
    split
    · decide
    · next hc => exact ⟨hc, (Text.trimList_eq_self_iff.mp htrim).1 c rfl⟩
  refine ⟨dropLeftBorder_of_head? (by rwa [hhead, ne_eq, Option.some_inj]), ?_⟩
  obtain ⟨hne, htrim⟩ := h last (List.mem_append_right _ (.head _))
  have hescape : escape last ≠ [] := by
    rw [← List.getLast?_isSome, getLast?_escape, List.getLast?_isSome]
    exact hne
  rw [Text.trimList_eq_self_iff]
  constructor
  · rintro d hd
    obtain rfl := Option.some_inj.mp (hhead.symm.trans hd)
    exact hblank
  · rw [bareRow_concat, List.getLast?_append_of_ne_nil _ hescape, getLast?_escape]
    exact (Text.trimList_eq_self_iff.mp htrim).2

/-- A row without borders is read back but for its last cell, if a pipe ends that one. -/
theorem cells_bareRow {init : List (List Char)} {last : List Char}
    (h : ∀ text ∈ init ++ [last], text ≠ [] ∧ Text.trimList text = text) :
    cells (bareRow (init ++ [last])) = init ++ [misread last] ∧
      (cells (bareRow (init ++ [last])) = init ++ [last] ↔ last.getLast? ≠ some '|') := by
  obtain ⟨hne, htrim⟩ := h last (List.mem_append_right _ (.head _))
  obtain ⟨hleft, hends⟩ := bareRow_ends h
  have hcells : cells (bareRow (init ++ [last])) = init ++ [misread last] := by
    have hnone : ∀ c ∈ ([] : List Char), c = ' ' := nofun
    have hcut := map_trimList_cut hnone init (misread last)
    rw [List.nil_append] at hcut
    rw [cells, hends, hleft, bareRow_concat, dropRightBorder_escape hne, hcut, List.map_append,
      List.map_singleton, trimList_misread htrim,
      List.map_congr_left fun text htext => (h text (List.mem_append_left _ htext)).2, List.map_id']
  refine ⟨hcells, ?_⟩
  rw [hcells, List.append_cancel_left_eq, List.singleton_inj, misread_eq_self_iff]

/-- Two cells with pipes and backslashes at their ends. -/
theorem cells_bareRow_backslashes :
    let texts := ["|a\\".toList, "|\\b\\".toList]
    (∀ text ∈ texts, text ≠ [] ∧ Text.trimList text = text) ∧
      bareRow texts = "\\|a\\ | \\|\\b\\".toList ∧ cells (bareRow texts) = texts := by
  have h : ∀ text ∈ ["|a\\".toList] ++ ["|\\b\\".toList], text ≠ [] ∧ Text.trimList text = text := by decide
  exact ⟨h, by decide, (cells_bareRow h).2.mpr (by decide)⟩

/-- An escaped pipe at the end of a row loses its pipe. -/
theorem cells_bareRow_pipe :
    let texts := ["a".toList, "b|".toList]
    (∀ text ∈ texts, text ≠ [] ∧ Text.trimList text = text) ∧
      bareRow texts = "a | b\\|".toList ∧ cells (bareRow texts) = ["a".toList, "b\\".toList] := by
  decide

end SourceTables.Markdown

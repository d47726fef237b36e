import SourceTables.Proofs.Markdown.Row
import SourceTables.Proofs.Markdown.Scan

/-!
# `SourceTables.Proofs.Markdown.Document`: documents of tables, and documents with fenced blocks

A document is a sequence of blocks, each of them a line of prose or a table. Every line of a table has
borders, so it is no fence and belongs to a table; the blank line after a table ends it, whatever its rows
hold. So the scan is between two tables after each block, and what it finds in a block does not depend on
those around it.

A fenced block begins with a line that starts with one of two marks, and ends with a line that starts with one.
Any mark counts for this: a block that quotes a line with the other mark ends there. The rest of it is then
read like what stands outside of blocks, up to the line that was to close it, which opens another one.

The theorems:

* `isFence_line`, `isTableLine_line`, `isDelimiterRow_line`: what the scan takes the lines of a table for.
* `tablesIn_block`: one block after the other.
* `grids_document`: the tables of a document are those that were written.
* `scan_opening`: after a blank line, the first line of a fenced block opens it whatever stands before.
* `grids_fenced`: the tables of a text with a fenced block in it, whatever the block quotes.
-/

set_option autoImplicit false

namespace SourceTables.Markdown

/-! ### Lines of a table -/

/-- A row is no fence: after blanks it starts with a pipe. -/
theorem isFence_line (row : WrittenRow) : isFence row.line = false := by
  have hstart (cs : List Char) :
      Text.trimLeft (row.padding.around ('|' :: cs)) = '|' :: (cs ++ row.padding.right) := by
    rw [Padding.around, List.append_assoc, Text.trimLeft_append fun c hc =>
      row.padding.isBlank c (List.mem_append_left _ hc)]
    exact List.dropWhile_cons_of_neg (by decide)
  rw [isFence, WrittenRow.line, hstart]
  simp

/-- A row can belong to a table. -/
theorem isTableLine_line (row : WrittenRow) : isTableLine row.line = true := by
  have hpipe : '|' ∈ row.line := by simp [WrittenRow.line, Padding.around]
  have hblank : row.line.all Text.isBlank = false :=
    List.all_eq_false.mpr ⟨'|', hpipe, by decide⟩
  rw [isTableLine, hblank, List.contains_iff_mem.mpr hpipe]
  rfl

/-- A row is one line. -/
theorem newline_not_mem_line (row : WrittenRow) : '\n' ∉ row.line := by
  refine Padding.not_mem_around row.padding.inLine fun hmem => ?_
  obtain ⟨cell, -, hcell⟩ := List.mem_flatMap.mp ((List.mem_cons.mp hmem).resolve_left (by decide))
  obtain hcell | hcell := List.mem_append.mp hcell
  · exact Padding.not_mem_around cell.padding.inLine
      (fun hescape => cell.inLine ((mem_escape (by decide)).mp hescape)) hcell
  · exact absurd hcell (by decide)

/-- Whether a cell stands in a delimiter row. -/
def WrittenCell.IsRule (cell : WrittenCell) : Prop :=
  '-' ∈ cell.text ∧ ∀ c ∈ cell.text, c = '-' ∨ c = ':'

instance (cell : WrittenCell) : Decidable cell.IsRule :=
  decidable_of_iff ('-' ∈ cell.text ∧ cell.text.all (fun c => c = '-' || c = ':') = true)
    (by simp [WrittenCell.IsRule])

/-- A row of dashes and colons stands between a header and its table. -/
theorem isDelimiterRow_line {row : WrittenRow} (h : ∀ cell ∈ row.cells, cell.IsRule) :
    isDelimiterRow row.line = true := by
  have hdash : '-' ∈ row.line := by
    obtain ⟨cell, more, hcells⟩ := List.exists_cons_of_ne_nil row.nonempty
    have hcell := (mem_escape (by decide)).mpr (h cell (by rw [hcells]; exact .head _)).1
    simp [WrittenRow.line, Padding.around, hcells, hcell]
  rw [isDelimiterRow, cells_line, List.contains_iff_mem.mpr hdash, Bool.true_and, List.all_eq_true]
  intro text htext
  obtain ⟨cell, hcell, rfl⟩ := List.mem_map.mp htext
  obtain ⟨hmem, hall⟩ := h cell hcell
  rw [Bool.and_eq_true, List.all_eq_true]
  constructor
  · simpa using List.ne_nil_of_mem hmem
  · intro c hc
    obtain rfl | rfl := hall c hc
    · decide
    · decide

/-! ### Blocks -/

/-- A table as it is written, with the blank line that ends it. -/
structure WrittenTable where
  header : WrittenRow
  delimiter : WrittenRow
  rows : List WrittenRow
  blank : List Char
  isDelimiter : ∀ cell ∈ delimiter.cells, cell.IsRule
  isBlank : ∀ c ∈ blank, Text.isBlank c = true
  inLine : '\n' ∉ blank

/-- A line that neither belongs to a table nor starts a fenced block. -/
structure WrittenProse where
  line : List Char
  pipe : '|' ∉ line
  fence : isFence line = false
  inLine : '\n' ∉ line

/-- A part of a document. -/
inductive Block where
  | prose (written : WrittenProse)
  | table (written : WrittenTable)

/-- The lines of a block. -/
def Block.lines : Block → List (List Char)
  | .prose written => [written.line]
  | .table written =>
    written.header.line :: written.delimiter.line :: (written.rows.map WrittenRow.line ++ [written.blank])

/-- The texts of the cells of a row. -/
def WrittenRow.texts (row : WrittenRow) : List String := row.cells.map fun cell => String.ofList cell.text

/-- The rows of a block that is a table. -/
def Block.grid? : Block → Option (List (List String))
  | .prose _ => none
  | .table written => some ((written.header :: written.rows).map WrittenRow.texts)

/-- The text of a document. -/
def document (blocks : List Block) : String :=
  String.ofList (['\n'].intercalate (blocks.flatMap Block.lines))

/-- The lines of a block are lines. -/
theorem newline_not_mem_of_mem_lines {block : Block} {line : List Char} (hline : line ∈ block.lines) :
    '\n' ∉ line := by
  cases block with
  | prose written =>
    rw [List.mem_singleton.mp hline]
    exact written.inLine
  | table written =>
    simp only [Block.lines, List.mem_cons, List.mem_append, List.mem_map, List.not_mem_nil, or_false] at hline
    obtain rfl | rfl | ⟨row, -, rfl⟩ | rfl := hline
    · exact newline_not_mem_line written.header
    · exact newline_not_mem_line written.delimiter
    · exact newline_not_mem_line row
    · exact written.inLine

/-- The rows that were written are read. -/
theorem rows_map_line (written : List WrittenRow) :
    rows (written.map WrittenRow.line) = written.map WrittenRow.texts := by
  simp [rows, cells_line, WrittenRow.texts]

/-- The table of a block comes before those of the lines after it. -/
theorem tablesIn_block (block : Block) (rest : List (List Char)) :
    tablesIn false (block.lines ++ rest) = block.grid?.toList ++ tablesIn false rest := by
  cases block with
  | prose written =>
    have htable : isTableLine written.line = false := by
      simp [isTableLine, written.pipe]
    exact tablesIn_prose written.fence htable
  | table written =>
    have hgap := isGap_of_blank written.isBlank
    have hrows : ∀ line ∈ written.rows.map WrittenRow.line, isTableLine line = true := by
      intro line hline
      obtain ⟨row, -, rfl⟩ := List.mem_map.mp hline
      exact isTableLine_line row
    have hheader : (isTableLine written.header.line && isDelimiterRow written.delimiter.line) = true := by
      rw [isTableLine_line, isDelimiterRow_line written.isDelimiter]
      rfl
    have hlines : (Block.table written).lines ++ rest = written.header.line :: written.delimiter.line ::
        (written.rows.map WrittenRow.line ++ written.blank :: rest) := by
      simp [Block.lines]
    -- The blank line ends the table, and the scan goes on after it.
    rw [hlines, tablesIn_header (isFence_line _) hheader, takeWhile_append_gap hgap.table,
      dropWhile_append_gap hgap.table, List.takeWhile_eq_self_iff.mpr hrows,
      List.dropWhile_eq_nil_iff.mpr hrows, List.nil_append, tablesIn_prose hgap.fence hgap.table,
      ← List.map_cons, rows_map_line]
    rfl

/-- The tables of a document are those that were written, one after the other. -/
theorem grids_document (blocks : List Block) : grids (document blocks) = blocks.filterMap Block.grid? := by
  have hscan : tablesIn false (blocks.flatMap Block.lines) = blocks.filterMap Block.grid? := by
    induction blocks with
    | nil => exact tablesIn_nil false
    | cons block blocks ih =>
      rw [List.flatMap_cons, tablesIn_block, ih, List.filterMap_cons]
      cases block.grid? with
      | none => rfl
      | some grid => rfl
  rw [← hscan, grids_eq, document, String.toList_ofList]
  -- A text without blocks has one piece, which is empty; any other has its lines as its pieces.
  cases blocks with
  | nil => exact (tablesIn_gap isGap_nil).trans (tablesIn_nil false).symm
  | cons block blocks =>
    rw [Text.split_intercalate]
    · cases block with
      | prose written => exact List.cons_ne_nil _ _
      | table written => exact List.cons_ne_nil _ _
    · intro line hline
      obtain ⟨block, -, hline⟩ := List.mem_flatMap.mp hline
      exact newline_not_mem_of_mem_lines hline

/-- A document with a row that could be a delimiter row, an empty cell and a backslash before a pipe. -/
example :
    let blanks : Padding := ⟨[' '], [' '], by simp [Text.isBlank], by decide⟩
    let none : Padding := ⟨[], [], nofun, by decide⟩
    let cell (text : String) (h : Text.trimList text.toList = text.toList) (h' : '\n' ∉ text.toList) :
      WrittenCell := ⟨text.toList, blanks, h, h'⟩
    let dash := cell "-" (by decide) (by decide)
    let backslash := cell "\\" (by decide) (by decide)
    let pipe := cell "a|" (by decide) (by decide)
    let empty := cell "" (by decide) (by decide)
    let blocks : List Block := [.prose ⟨"Text.".toList, by decide, by decide, by decide⟩,
      .table ⟨⟨[dash], none, by decide, by decide⟩, ⟨[dash], none, by decide, by decide⟩,
        [⟨[backslash, pipe, empty], none, by decide, by decide⟩], [], by decide, nofun, by decide⟩]
    document blocks = "Text.\n| - |\n| - |\n| \\ | a\\| |  |\n" ∧
      blocks.filterMap Block.grid? = [[["-"], ["\\", "a|", ""]]] := by
  exact ⟨by decide +kernel, by decide +kernel⟩

/-! ### Fenced blocks -/

/-- The text of lines, each of which ends, and of what comes after them. -/
def textOf (lines : List (List Char)) (after : String) : String :=
  String.ofList (Text.unlines lines ++ after.toList)

theorem grids_textOf {lines : List (List Char)} (hlines : ∀ line ∈ lines, '\n' ∉ line) (after : String) :
    grids (textOf lines after) = tablesIn false (lines ++ Text.split (· == '\n') after.toList) := by
  rw [grids_eq, textOf, String.toList_ofList, Text.split_unlines_append hlines]

/-- The tables of lines that all end. -/
theorem grids_textOf_empty {lines : List (List Char)} (hlines : ∀ line ∈ lines, '\n' ∉ line) :
    grids (textOf lines "") = tablesIn false lines := by
  rw [grids_textOf hlines]
  show tablesIn false (lines ++ [[]]) = _
  rw [(scan_append isGap_nil false lines []).1, tablesIn_gap isGap_nil, List.append_nil]

/-- A block is opened after a blank line. -/
theorem scan_opening {before : List (List Char)} {blank opening : List Char}
    (hblank : ∀ c ∈ blank, Text.isBlank c = true) (hclosed : fenceAfter false before = false)
    (hopening : isFence opening = true) (rest : List (List Char)) :
    tablesIn false (before ++ blank :: opening :: rest)
        = tablesIn false (before ++ [blank]) ++ tablesIn true rest ∧
      fenceAfter false (before ++ blank :: opening :: rest) = fenceAfter true rest := by
  have hgap := isGap_of_blank hblank
  have hskip : (isTableLine blank && isDelimiterRow opening) = false := by
    rw [hgap.table, Bool.false_and]
  obtain ⟨htables, hfence⟩ := scan_append hgap false before (opening :: rest)
  rw [hclosed, tablesIn_skip hgap.fence hskip, tablesIn_fence hopening] at htables
  rw [hclosed, fenceAfter_skip hgap.fence hskip, fenceAfter_fence hopening] at hfence
  rw [htables, hfence, (scan_append hgap false before []).1, tablesIn_gap hgap, List.append_nil]
  exact ⟨rfl, rfl⟩

/-- A line is a fence just when it starts with one of the marks. -/
theorem isFence_of_marks {mark other : Char}
    (hmarks : (mark = '`' ∧ other = '~') ∨ (mark = '~' ∧ other = '`')) (line : List Char) :
    isFence line = (startsWith mark line || startsWith other line) := by
  obtain ⟨rfl, rfl⟩ | ⟨rfl, rfl⟩ := hmarks
  · exact isFence_eq line
  · rw [isFence_eq, Bool.or_comm]

/-- A block that quotes no line with the other mark adds no table, and no fence is open after it. If it does
quote one, the first of these lines ends the block, and what follows in it is read as if it stood outside, up
to the line that was to close it and beyond. -/
theorem grids_fenced {mark other : Char}
    (hmarks : (mark = '`' ∧ other = '~') ∨ (mark = '~' ∧ other = '`'))
    {before inner : List (List Char)} {blank opening closing : List Char}
    (hlines : ∀ line ∈ before ++ blank :: opening :: (inner ++ [closing]), '\n' ∉ line)
    (hblank : ∀ c ∈ blank, Text.isBlank c = true) (hclosed : fenceAfter false before = false)
    (hopening : startsWith mark opening = true) (hclosing : startsWith mark closing = true)
    (hinner : ∀ line ∈ inner, startsWith mark line = false) (after : String) :
    ((∀ line ∈ inner, startsWith other line = false) →
      grids (textOf (before ++ blank :: opening :: (inner ++ [closing])) after)
          = grids (textOf (before ++ [blank]) "") ++ grids after ∧
        fenceAfter false (before ++ blank :: opening :: (inner ++ [closing])) = false) ∧
    ∀ quoted line rest, inner = quoted ++ line :: rest →
      (∀ earlier ∈ quoted, startsWith other earlier = false) → startsWith other line = true →
      grids (textOf (before ++ blank :: opening :: (inner ++ [closing])) after)
        = grids (textOf (before ++ [blank]) "") ++ grids (textOf (rest ++ [closing]) after) := by
  have hfence := isFence_of_marks hmarks
  have hopens : isFence opening = true := by rw [hfence, hopening, Bool.true_or]
  have hcloses : isFence closing = true := by rw [hfence, hclosing, Bool.true_or]
  have hbefore : grids (textOf (before ++ [blank]) "") = tablesIn false (before ++ [blank]) :=
    grids_textOf_empty fun line hline => hlines line (by
      obtain hline | hline := List.mem_append.mp hline
      · exact List.mem_append_left _ hline
      · exact List.mem_append_right _ (by rw [List.mem_singleton.mp hline]; exact .head _))
  -- Whatever a block holds, its lines are scanned inside of it after the lines before.
  have hwhole (pieces : List (List Char)) :
      tablesIn false (before ++ blank :: opening :: (inner ++ [closing]) ++ pieces)
        = grids (textOf (before ++ [blank]) "") ++ tablesIn true (inner ++ closing :: pieces) := by
    rw [hbefore, ← (scan_opening hblank hclosed hopens _).1]
    simp
  constructor
  · intro hother
    have hskipped : ∀ line ∈ inner, isFence line = false := fun line hline => by
      rw [hfence, hinner line hline, hother line hline, Bool.false_or]
    constructor
    · rw [grids_textOf hlines, hwhole, (scan_block hskipped hcloses _).1, ← grids_eq]
    · rw [(scan_opening hblank hclosed hopens _).2, (scan_block hskipped hcloses []).2, fenceAfter_nil]
  · rintro quoted line rest rfl hother hline
    have hskipped : ∀ earlier ∈ quoted, isFence earlier = false := fun earlier hearlier => by
      rw [hfence, hinner earlier (List.mem_append_left _ hearlier), hother earlier hearlier, Bool.false_or]
    have hends : isFence line = true := by rw [hfence, hline, Bool.or_true]
    have hrest : ∀ later ∈ rest ++ [closing], '\n' ∉ later := fun later hlater =>
      hlines later (List.mem_append_right _ (by simp at hlater ⊢; tauto))
    rw [grids_textOf hlines, hwhole, grids_textOf hrest, List.append_assoc, List.cons_append,
      (scan_block hskipped hends _).1, List.append_assoc]
    rfl

/-- Two tables and a block that quotes a third one. -/
theorem grids_fenced_table :
    let before := ["| a |".toList, "| - |".toList, "| 1 |".toList]
    let inner := ["| x |".toList, "| - |".toList]
    fenceAfter false before = false ∧ (∀ line ∈ inner, startsWith '~' line = false) ∧
      grids (textOf (before ++ [] :: "  ```lean".toList :: (inner ++ ["```".toList])) "b | c\n- | -\n")
        = grids (textOf (before ++ [[]]) "") ++ grids "b | c\n- | -\n" := by
  intro before inner
  have hclosed : fenceAfter false before = false := by decide +kernel
  have hother : ∀ line ∈ inner, startsWith '~' line = false := by decide +kernel
  exact ⟨hclosed, hother, ((grids_fenced (.inl ⟨rfl, rfl⟩) (by decide +kernel) (by simp) hclosed
    (by decide +kernel) (by decide +kernel) (by decide +kernel) _).1 hother).1⟩

/-- A block that quotes a line with the other mark may add a table to those before and after it. -/
theorem grids_fenced_quoted :
    let inner := ["~~~".toList, "| a |".toList, "| - |".toList]
    (∀ line ∈ inner, startsWith '`' line = false) ∧
      grids (textOf ([] :: "```".toList :: (inner ++ ["```".toList])) "") = [[["a"]]] ∧
      grids (textOf [[]] "") ++ grids "" = [] := by
  decide +kernel

end SourceTables.Markdown

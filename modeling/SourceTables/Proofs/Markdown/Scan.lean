import SourceTables.Markdown
import SourceTables.Proofs.Text.Line

/-!
# `SourceTables.Proofs.Markdown.Scan`: tables in the parts of a text

The scan knows of the lines before only whether a fence is open, and it looks one line ahead for a delimiter
row. A line that is neither a fence nor a row cuts a text in two: no table goes on over it, and no line before
it can be the header of one after it. So what comes after such a line is scanned with the fence that the lines
before it leave open, and with nothing else of them.

The scan cuts a text at its line feeds and then takes carriage returns off. To the tables they are blanks at
the ends of lines, so a text can be thought of as the pieces between its line feeds.

The theorems:

* `scan_append`: the tables before and after a line that cuts a text in two.
* `scan_block`: the lines of a block are skipped up to the next fence.
* `grids_eq`: the tables of a text are those of the pieces between its line feeds.
-/

set_option autoImplicit false

namespace SourceTables.Markdown

variable {fenced : Bool} {line : List Char} {rest : List (List Char)}

/-! ### One line after another -/

@[simp] theorem tablesIn_nil (fenced : Bool) : tablesIn fenced [] = [] := by
  rw [tablesIn.eq_def]

/-- A fence opens or closes a block. -/
theorem tablesIn_fence (h : isFence line = true) :
    tablesIn fenced (line :: rest) = tablesIn (!fenced) rest := by
  rw [tablesIn.eq_def]
  dsimp only
  rw [if_pos h]

/-- Any other line of a block is skipped. -/
theorem tablesIn_fenced (h : isFence line = false) :
    tablesIn true (line :: rest) = tablesIn true rest := by
  rw [tablesIn.eq_def]
  dsimp only
  rw [h, if_neg Bool.false_ne_true, if_pos rfl]

/-- The last line is no header. -/
theorem tablesIn_last (hfence : isFence line = false) : tablesIn false [line] = [] := by
  rw [tablesIn.eq_def]
  dsimp only
  rw [hfence, if_neg Bool.false_ne_true, if_neg Bool.false_ne_true]

/-- A line that is no header is skipped. -/
theorem tablesIn_skip {next : List Char} (hfence : isFence line = false)
    (h : (isTableLine line && isDelimiterRow next) = false) :
    tablesIn false (line :: next :: rest) = tablesIn false (next :: rest) := by
  rw [tablesIn.eq_def]
  dsimp only
  rw [hfence, if_neg Bool.false_ne_true, if_neg Bool.false_ne_true, h, if_neg Bool.false_ne_true]

/-- So is a line that belongs to no table. -/
theorem tablesIn_prose (hfence : isFence line = false) (htable : isTableLine line = false) :
    tablesIn false (line :: rest) = tablesIn false rest := by
  cases rest with
  | nil => rw [tablesIn_last hfence, tablesIn_nil]
  | cons next body => exact tablesIn_skip hfence (by rw [htable, Bool.false_and])

/-- A header starts a table, and the table lines below it belong to it. -/
theorem tablesIn_header {next : List Char} (hfence : isFence line = false)
    (h : (isTableLine line && isDelimiterRow next) = true) :
    tablesIn false (line :: next :: rest)
      = rows (line :: rest.takeWhile isTableLine) :: tablesIn false (rest.dropWhile isTableLine) := by
  rw [tablesIn.eq_def]
  dsimp only
  rw [hfence, if_neg Bool.false_ne_true, if_neg Bool.false_ne_true, if_pos h]

/-- Whether a fence is open after lines. -/
def fenceAfter (fenced : Bool) (lines : List (List Char)) : Bool :=
  match lines with
  | [] => fenced
  | line :: rest =>
    if isFence line then fenceAfter (!fenced) rest
    else if fenced then fenceAfter true rest
    else match rest with
      | [] => false
      | next :: body =>
        -- The rows of a table are no fences, whatever they start with.
        if isTableLine line && isDelimiterRow next then fenceAfter false (body.dropWhile isTableLine)
        else fenceAfter false (next :: body)
termination_by lines.length
decreasing_by
  all_goals simp
  all_goals have := (List.dropWhile_sublist (l := body) isTableLine).length_le
  all_goals omega

@[simp] theorem fenceAfter_nil (fenced : Bool) : fenceAfter fenced [] = fenced := by
  rw [fenceAfter.eq_def]

theorem fenceAfter_fence (h : isFence line = true) :
    fenceAfter fenced (line :: rest) = fenceAfter (!fenced) rest := by
  rw [fenceAfter.eq_def]
  dsimp only
  rw [if_pos h]

theorem fenceAfter_fenced (h : isFence line = false) :
    fenceAfter true (line :: rest) = fenceAfter true rest := by
  rw [fenceAfter.eq_def]
  dsimp only
  rw [h, if_neg Bool.false_ne_true, if_pos rfl]

theorem fenceAfter_skip {next : List Char} (hfence : isFence line = false)
    (h : (isTableLine line && isDelimiterRow next) = false) :
    fenceAfter false (line :: next :: rest) = fenceAfter false (next :: rest) := by
  rw [fenceAfter.eq_def]
  dsimp only
  rw [hfence, if_neg Bool.false_ne_true, if_neg Bool.false_ne_true, h, if_neg Bool.false_ne_true]

theorem fenceAfter_header {next : List Char} (hfence : isFence line = false)
    (h : (isTableLine line && isDelimiterRow next) = true) :
    fenceAfter false (line :: next :: rest) = fenceAfter false (rest.dropWhile isTableLine) := by
  rw [fenceAfter.eq_def]
  dsimp only
  rw [hfence, if_neg Bool.false_ne_true, if_neg Bool.false_ne_true, if_pos h]

/-! ### Two parts of a text -/

/-- Whether a line belongs to no table and is no fence. -/
structure IsGap (line : List Char) : Prop where
  fence : isFence line = false
  table : isTableLine line = false
  delimiter : isDelimiterRow line = false

theorem takeWhile_append_gap {gap : List Char} (hgap : isTableLine gap = false)
    (body after : List (List Char)) :
    (body ++ gap :: after).takeWhile isTableLine = body.takeWhile isTableLine := by
  rw [List.takeWhile_append, List.takeWhile_cons_of_neg (Bool.not_eq_true _ |>.mpr hgap)]
  split
  · next hall => rw [List.append_nil, (List.takeWhile_prefix _).eq_of_length hall]
  · rfl

theorem dropWhile_append_gap {gap : List Char} (hgap : isTableLine gap = false)
    (body after : List (List Char)) :
    (body ++ gap :: after).dropWhile isTableLine = body.dropWhile isTableLine ++ gap :: after := by
  rw [List.dropWhile_append, List.dropWhile_cons_of_neg (Bool.not_eq_true _ |>.mpr hgap)]
  split
  · next hnone => rw [List.isEmpty_iff.mp hnone, List.nil_append]
  · rfl

/-- What stands before a gap and what comes after it are scanned one after the other. -/
theorem scan_append {gap : List Char} (hgap : IsGap gap) (fenced : Bool) (before after : List (List Char)) :
    tablesIn fenced (before ++ gap :: after)
        = tablesIn fenced before ++ tablesIn (fenceAfter fenced before) (gap :: after) ∧
      fenceAfter fenced (before ++ gap :: after)
        = fenceAfter (fenceAfter fenced before) (gap :: after) := by
  fun_induction fenceAfter fenced before with
  | case1 fenced => exact ⟨by rw [tablesIn_nil]; rfl, rfl⟩
  | case2 fenced line rest h ih =>
    rw [List.cons_append, tablesIn_fence h, tablesIn_fence h, fenceAfter_fence h]
    exact ih
  | case3 line rest h ih =>
    have hfence := Bool.of_not_eq_true h
    rw [List.cons_append, tablesIn_fenced hfence, tablesIn_fenced hfence, fenceAfter_fenced hfence]
    exact ih
  | case4 fenced line h hfenced =>
    obtain rfl := Bool.of_not_eq_true hfenced
    have hfence := Bool.of_not_eq_true h
    -- The gap is the one line after, and it is no delimiter row.
    have hnot : (isTableLine line && isDelimiterRow gap) = false := by
      rw [hgap.delimiter, Bool.and_false]
    rw [List.singleton_append, tablesIn_skip hfence hnot, tablesIn_last hfence, List.nil_append,
      fenceAfter_skip hfence hnot]
    exact ⟨rfl, rfl⟩
  | case5 fenced line h hfenced next body hheader ih =>
    obtain rfl := Bool.of_not_eq_true hfenced
    have hfence := Bool.of_not_eq_true h
    rw [List.cons_append, List.cons_append, tablesIn_header hfence hheader, tablesIn_header hfence hheader,
      takeWhile_append_gap hgap.table, dropWhile_append_gap hgap.table, fenceAfter_header hfence hheader,
      dropWhile_append_gap hgap.table, List.cons_append]
    exact ⟨congrArg _ ih.1, ih.2⟩
  | case6 fenced line h hfenced next body hheader ih =>
    obtain rfl := Bool.of_not_eq_true hfenced
    have hfence := Bool.of_not_eq_true h
    have hnot := Bool.of_not_eq_true hheader
    rw [List.cons_append, List.cons_append, tablesIn_skip hfence hnot, tablesIn_skip hfence hnot,
      fenceAfter_skip hfence hnot]
    exact ih

/-- Lines in a block that are no fences are skipped, and so is the fence that closes it. -/
theorem scan_block {inner : List (List Char)} (hinner : ∀ line ∈ inner, isFence line = false)
    {closing : List Char} (hclosing : isFence closing = true) (after : List (List Char)) :
    tablesIn true (inner ++ closing :: after) = tablesIn false after ∧
      fenceAfter true (inner ++ closing :: after) = fenceAfter false after := by
  induction inner with
  | nil => exact ⟨tablesIn_fence hclosing, fenceAfter_fence hclosing⟩
  | cons line inner ih =>
    have hline := hinner line (.head _)
    rw [List.cons_append, tablesIn_fenced hline, fenceAfter_fenced hline]
    exact ih fun line hline => hinner line (.tail _ hline)

/-! ### Ends of lines -/

/-- Whether a line starts with a mark of fences, after blanks. -/
def startsWith (mark : Char) (line : List Char) : Bool :=
  (Text.trimLeft line).take 3 = [mark, mark, mark]

/-- There are two marks of fences. -/
theorem isFence_eq (line : List Char) : isFence line = (startsWith '`' line || startsWith '~' line) := rfl

/-- A blank at the end of a line makes no difference to how it starts. -/
theorem startsWith_append {mark blank : Char} (hblank : Text.isBlank blank = true) (hne : mark ≠ blank)
    (line : List Char) : startsWith mark (line ++ [blank]) = startsWith mark line := by
  have htake (xs : List Char) : (xs ++ [blank]).take 3 = [mark, mark, mark] ↔
      xs.take 3 = [mark, mark, mark] := by
    match xs with
    | [] | [_] | [_, _] => simp [hne.symm]
    | _ :: _ :: _ :: _ => simp
  unfold startsWith Text.trimLeft
  rw [List.dropWhile_append]
  split
  · next hnone => simp [hblank, List.isEmpty_iff.mp hnone]
  · simp only [htake]

/-- Whether two lines are the same to the scan. -/
structure Alike (line line' : List Char) : Prop where
  fence : isFence line' = isFence line
  table : isTableLine line' = isTableLine line
  delimiter : isDelimiterRow line' = isDelimiterRow line
  cells : cells line' = cells line

theorem Alike.refl (line : List Char) : Alike line line := ⟨rfl, rfl, rfl, rfl⟩

/-- A carriage return at the end of a line makes no difference. -/
theorem alike_dropReturn (line : List Char) : Alike line (Text.dropReturn line) := by
  have hcells : cells (Text.dropReturn line) = cells line := by
    rw [cells, Text.trimList_dropReturn, cells]
  obtain hline | ⟨start, rfl, hline⟩ : Text.dropReturn line = line ∨
      ∃ start, line = start ++ ['\r'] ∧ Text.dropReturn line = start := by
    unfold Text.dropReturn
    split
    · next hlast =>
      obtain ⟨start, rfl⟩ := List.getLast?_eq_some_iff.mp hlast
      exact .inr ⟨start, rfl, List.dropLast_concat⟩
    · exact .inl rfl
  · rw [hline]
    exact .refl line
  · rw [hline] at hcells ⊢
    refine ⟨?_, ?_, ?_, hcells⟩
    · rw [isFence_eq, isFence_eq, startsWith_append (by decide) (by decide),
        startsWith_append (by decide) (by decide)]
    · simp [isTableLine, Text.isBlank]
    · rw [isDelimiterRow, isDelimiterRow, hcells]
      simp

/-- The table lines at the start are as many, and the same to the scan, as are those after them. -/
theorem alike_takeWhile {lines lines' : List (List Char)} (h : List.Forall₂ Alike lines lines') :
    rows (lines'.takeWhile isTableLine) = rows (lines.takeWhile isTableLine) ∧
      List.Forall₂ Alike (lines.dropWhile isTableLine) (lines'.dropWhile isTableLine) := by
  induction h with
  | nil => exact ⟨rfl, .nil⟩
  | @cons line line' rest rest' hline hrest ih =>
    rw [List.takeWhile_cons, List.takeWhile_cons, List.dropWhile_cons, List.dropWhile_cons, hline.table]
    split
    · refine ⟨?_, ih.2⟩
      unfold rows at ih ⊢
      rw [List.map_cons, List.map_cons, hline.cells, ih.1]
    · exact ⟨rfl, .cons hline hrest⟩

/-- Lines that are the same to the scan have the same tables. -/
theorem tablesIn_congr {lines lines' : List (List Char)} (h : List.Forall₂ Alike lines lines') :
    tablesIn fenced lines' = tablesIn fenced lines := by
  fun_induction tablesIn fenced lines generalizing lines' with
  | case1 fenced =>
    cases h
    exact tablesIn_nil fenced
  | case2 fenced line rest hfence ih =>
    obtain _ | ⟨hline, hrest⟩ := h
    rw [tablesIn_fence (hline.fence.trans hfence), ih hrest]
  | case3 line rest hfence ih =>
    obtain _ | ⟨hline, hrest⟩ := h
    rw [tablesIn_fenced (hline.fence.trans (Bool.of_not_eq_true hfence)), ih hrest]
  | case4 fenced line hfence hfenced =>
    obtain _ | ⟨hline, hrest⟩ := h
    cases hrest
    obtain rfl := Bool.of_not_eq_true hfenced
    exact tablesIn_last (hline.fence.trans (Bool.of_not_eq_true hfence))
  | case5 fenced line hfence hfenced next body hheader ih =>
    obtain _ | ⟨hline, hrest⟩ := h
    obtain _ | ⟨hnext, hbody⟩ := hrest
    obtain rfl := Bool.of_not_eq_true hfenced
    obtain ⟨hrows, hlater⟩ := alike_takeWhile hbody
    rw [tablesIn_header (hline.fence.trans (Bool.of_not_eq_true hfence))
      (by rw [hline.table, hnext.delimiter, hheader]), ih hlater]
    unfold rows at hrows ⊢
    rw [List.map_cons, List.map_cons, hline.cells, hrows]
  | case6 fenced line hfence hfenced next body hheader ih =>
    obtain _ | ⟨hline, hrest⟩ := h
    obtain _ | ⟨hnext, hbody⟩ := hrest
    obtain rfl := Bool.of_not_eq_true hfenced
    rw [tablesIn_skip (hline.fence.trans (Bool.of_not_eq_true hfence))
      (by rw [hline.table, hnext.delimiter, Bool.of_not_eq_true hheader]), ih (.cons hnext hbody)]

/-! ### Texts -/

/-- Blank lines are gaps. -/
theorem isGap_of_blank (h : ∀ c ∈ line, Text.isBlank c = true) : IsGap line := by
  have hnone : Text.trimLeft line = [] := List.dropWhile_eq_nil_iff.mpr h
  refine ⟨?_, ?_, ?_⟩
  · rw [isFence, hnone]
    rfl
  · rw [isTableLine, List.all_eq_true.mpr h, Bool.not_true, Bool.and_false]
  · have hdash : line.contains '-' = false := by
      rw [List.contains_eq_mem, decide_eq_false_iff_not]
      exact fun hmem => absurd (h _ hmem) (by decide)
    rw [isDelimiterRow, hdash, Bool.false_and]

theorem isGap_nil : IsGap [] := isGap_of_blank nofun

/-- A gap alone holds no table. -/
theorem tablesIn_gap (h : IsGap line) : tablesIn fenced [line] = [] := by
  cases fenced with
  | false => exact tablesIn_last h.fence
  | true => rw [tablesIn_fenced h.fence, tablesIn_nil]

/-- The lines of a text are the pieces between its line feeds, but for carriage returns at their ends and for
an empty piece at the end. -/
theorem exists_alike_endedLines (pieces : List (List Char)) :
    ∃ lines, (pieces = lines ∨ pieces = lines ++ [[]]) ∧ List.Forall₂ Alike lines (Text.endedLines pieces) := by
  fun_induction Text.endedLines pieces with
  | case1 => exact ⟨[], .inl rfl, .nil⟩
  | case2 last hempty => exact ⟨[], .inr (by rw [List.isEmpty_iff.mp hempty]; rfl), .nil⟩
  | case3 last => exact ⟨[last], .inl rfl, .cons (.refl last) .nil⟩
  | case4 line rest _ ih =>
    obtain ⟨lines, hrest, halike⟩ := ih
    refine ⟨line :: lines, ?_, .cons (alike_dropReturn line) halike⟩
    exact hrest.imp (congrArg (line :: ·)) (congrArg (line :: ·))

/-- The tables of a text are those in the pieces between its line feeds. -/
theorem grids_eq (text : String) :
    grids text = tablesIn false (Text.split (· == '\n') text.toList) := by
  unfold grids Text.lines
  obtain ⟨lines, hpieces, halike⟩ := exists_alike_endedLines (Text.split (· == '\n') text.toList)
  rw [tablesIn_congr halike]
  obtain hpieces | hpieces := hpieces
  · rw [hpieces]
  · rw [hpieces, (scan_append isGap_nil false lines []).1, tablesIn_gap isGap_nil, List.append_nil]

end SourceTables.Markdown

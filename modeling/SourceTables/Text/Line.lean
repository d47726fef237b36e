import SourceTables.Text.Split

/-!
# `SourceTables.Text.Line`: the lines of a text

A line ends with a line feed, and a carriage return right before that belongs to the line's end. The
last line may end without one; what follows the last line feed is a line only if it is not empty.

Main statement: `newline_not_mem_lines` (no line holds a line feed).
-/

set_option autoImplicit false

namespace SourceTables.Text

/-- A line that was ended by a line feed, without the carriage return before that. -/
def dropReturn (line : List Char) : List Char :=
  if line.getLast? = some '\r' then line.dropLast else line

/-- Lines from the pieces between line feeds. -/
def endedLines : List (List Char) → List (List Char)
  | [] => []
  | [last] => if last.isEmpty then [] else [last]
  | line :: rest => dropReturn line :: endedLines rest

/-- The lines of a text. -/
def lines (cs : List Char) : List (List Char) := endedLines (split (· == '\n') cs)

/-- No line of ended pieces holds a character that no piece holds. -/
theorem not_mem_endedLines (c : Char) (pieces : List (List Char))
    (h : ∀ piece ∈ pieces, c ∉ piece) : ∀ line ∈ endedLines pieces, c ∉ line := by
  fun_induction endedLines pieces with
  | case1 => simp
  | case2 => simp
  | case3 last hlast => simpa using h last (by simp)
  | case4 first rest _ ih =>
    intro line hline
    rcases List.mem_cons.1 hline with rfl | hline
    · intro hc
      refine h first (by simp) ?_
      unfold dropReturn at hc
      split at hc
      · exact List.dropLast_subset _ hc
      · exact hc
    · exact ih (fun piece hpiece => h piece (by simp [hpiece])) line hline

/-- No line holds a line feed. -/
theorem newline_not_mem_lines (cs : List Char) : ∀ line ∈ lines cs, '\n' ∉ line :=
  not_mem_endedLines '\n' _ fun piece hpiece hc => by
    simpa using not_of_mem_split (· == '\n') cs piece hpiece '\n' hc

end SourceTables.Text

import SourceTables.Schema

/-!
# `SourceTables.Batch`: cells, rows and tables

A cell is a value of its column's type. A batch is a run of rows under one schema, and a table is a
schema with its batches; the rows of a table are those of its batches, one after another.

Main statements: `flatten_chunks` (chunks are the list again) and `length_le_of_mem_chunks` (none is
longer than its bound).
-/

set_option autoImplicit false

namespace SourceTables

/-- A value. Dates count days and points in time count units of their column's type since
1970-01-01; the members of a structure stand in the order of its type. -/
inductive Cell where
  | null
  | bool (value : Bool)
  | int (value : Int)
  | float (value : Float)
  | text (value : String)
  | date (days : Int)
  | instant (count : Int)
  | list (items : List Cell)
  | struct (members : List Cell)

instance : Inhabited Cell := ⟨.null⟩

/-- Whether a cell holds no value. -/
def Cell.isNull : Cell → Bool
  | .null => true
  | _ => false

/-- The cells of one row, in column order. -/
abbrev Row := List Cell

/-- A run of rows under one schema. -/
structure Batch where
  schema : Schema
  rows : List Row

/-- A decoded table. A table of a source that holds several has a name there. -/
structure Table where
  name : Option String
  schema : Schema
  batches : List (List Row)

/-- All rows of a table. -/
def Table.rows (t : Table) : List Row := t.batches.flatten

/-- A list cut into pieces of `size` elements, the last one possibly shorter. A size of zero counts
as one. -/
def chunks {α : Type} (size : Nat) (xs : List α) : List (List α) :=
  match xs with
  | [] => []
  | x :: rest =>
    (x :: rest.take (size - 1)) :: chunks size (rest.drop (size - 1))
termination_by xs.length
decreasing_by simp only [List.length_cons, List.length_drop]; omega

/-- The chunks of a list, one after another, are the list. -/
theorem flatten_chunks {α : Type} (size : Nat) (xs : List α) : (chunks size xs).flatten = xs := by
  fun_induction chunks size xs with
  | case1 => rfl
  | case2 x rest ih => simp [ih]

/-- No chunk is longer than its bound. -/
theorem length_le_of_mem_chunks {α : Type} (size : Nat) (xs : List α) :
    ∀ piece ∈ chunks size xs, 1 ≤ piece.length ∧ piece.length ≤ max size 1 := by
  fun_induction chunks size xs with
  | case1 => simp
  | case2 x rest ih =>
    intro piece hpiece
    rcases List.mem_cons.1 hpiece with rfl | hpiece
    · simp only [List.length_cons, List.length_take]; omega
    · exact ih piece hpiece

end SourceTables

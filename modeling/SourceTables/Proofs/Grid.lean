import SourceTables.Grid
import SourceTables.Proofs.Text.Heading
import SourceTables.Proofs.TextType

/-!
# `SourceTables.Proofs.Grid`: what becomes of the cells of a grid

A table is read off a grid in two passes: the first finds the types of the columns from all rows, and the
second reads the cells, batch by batch. The texts that the second pass reads are those that the first has
looked at, so no cell that holds anything is lost between the two.

`textAt` is what a row holds in a column, and all that is known of a table is said in terms of it: the cells
of the table, the types of its columns, and which rows of the grid it has.

The theorems:

* `length_of_mem_dropLast_chunks`: all chunks but the last are full.
* `getElem?_columnTypes`, `getElem?_typedRow`: the two passes, column by column.
* `toTable?_tabulates`: the table of a grid.
-/

set_option autoImplicit false

namespace SourceTables

/-- All chunks of a list but the last are full. -/
theorem length_of_mem_dropLast_chunks {α : Type} (size : Nat) (xs : List α) :
    ∀ piece ∈ (chunks size xs).dropLast, piece.length = max size 1 := by
  fun_induction chunks size xs with
  | case1 => simp
  | case2 x rest ih =>
    intro piece hpiece
    cases hlater : chunks size (rest.drop (size - 1)) with
    | nil => simp [hlater] at hpiece
    | cons next later =>
      rw [hlater, List.dropLast_cons_of_ne_nil (List.cons_ne_nil _ _)] at hpiece
      rcases List.mem_cons.mp hpiece with rfl | hpiece
      · -- A chunk comes after it, so the list goes on past the first chunk.
        have hmore : size - 1 < rest.length := by
          apply Nat.lt_of_not_le
          intro hle
          rw [List.drop_of_length_le hle] at hlater
          simp [chunks] at hlater
        simp only [List.length_cons, List.length_take]
        omega
      · exact ih piece (hlater ▸ hpiece)

namespace Grid

/-! ### Rows and columns of texts -/

/-- What a row holds in a column: nothing where the cell is blank or the row is too short. -/
def textAt (row : List String) (column : Nat) : String := (row[column]?.map Text.trim).getD ""

/-- What the rows hold in a column. -/
def textsIn (rows : List (List String)) (column : Nat) : List String :=
  (rows.map fun row => textAt row column).filter fun s => !s.isEmpty

/-- Whether a row holds nothing. -/
def isBlankRow (row : List String) : Bool := row.all fun s => (Text.trim s).isEmpty

/-- The rows that hold something. -/
def filledRows (grid : List (List String)) : List (List String) := grid.filter fun row => !isBlankRow row

/-- The rows that a table is made of are those that hold something, trimmed. -/
theorem visibleRows_eq (grid : List (List String)) :
    visibleRows grid = (filledRows grid).map fun row => row.map Text.trim := by
  unfold visibleRows filledRows
  rw [List.filter_map]
  congr 1
  refine List.filter_congr fun row _ => ?_
  simp [isBlankRow, List.any_map, List.all_eq_not_any_not, Function.comp_def]

theorem filledRows_eq_nil {grid : List (List String)} :
    filledRows grid = [] ↔ ∀ row ∈ grid, ∀ s ∈ row, Text.trim s = "" := by
  simp [filledRows, isBlankRow]

/-! ### The two passes -/

/-- The type of a column is that of what the rows hold in it. -/
theorem getElem?_columnTypes (width : Nat) :
    ∀ (rows : List (List String)) (column : Nat), column < width →
      (columnTypes width rows)[column]? =
        some (TextType.infer ((rows.filterMap fun row => row[column]?).filter fun s => !s.isEmpty)) := by
  induction width with
  | zero => intro rows column h; omega
  | succ width ih =>
    intro rows column h
    cases column with
    | zero =>
      simp only [columnTypes, List.getElem?_cons_zero]
      simp only [List.head?_eq_getElem?]
    | succ column =>
      simp only [columnTypes, List.getElem?_cons_succ]
      rw [ih _ _ (by omega), List.filterMap_map]
      simp only [Function.comp_def, List.getElem?_tail]

theorem length_columnTypes (width : Nat) :
    ∀ rows : List (List String), (columnTypes width rows).length = width := by
  induction width with
  | zero => intro rows; rfl
  | succ width ih => intro rows; simp [columnTypes, ih]

theorem length_typedRow (types : List TextType) :
    ∀ row : List String, (typedRow types row).length = types.length := by
  induction types with
  | nil => intro row; rfl
  | cons type types ih => intro row; cases row <;> simp [typedRow, ih]

/-- A row is read column by column, and what it lacks is null. -/
theorem getElem?_typedRow (types : List TextType) :
    ∀ (row : List String) (column : Nat),
      (typedRow types row)[column]? = types[column]?.map fun type => type.cell (row[column]?.getD "") := by
  induction types with
  | nil => intro row column; simp [typedRow]
  | cons type types ih =>
    intro row column
    cases row with
    | nil =>
      cases column with
      | zero => simp [typedRow, TextType.cell]
      | succ column => simp [typedRow, ih]
    | cons s row =>
      cases column with
      | zero => simp [typedRow]
      | succ column => simp [typedRow, ih]

/-- What trimmed rows have in a column, empty texts apart, is what the rows hold in it. -/
theorem filter_filterMap_trim (rows : List (List String)) (column : Nat) :
    ((rows.map fun row => row.map Text.trim).filterMap fun row => row[column]?).filter
      (fun s => !s.isEmpty) = textsIn rows column := by
  induction rows with
  | nil => rfl
  | cons row rows ih =>
    simp only [textsIn, textAt, List.map_cons] at ih ⊢
    -- A row that is too short has no text in the column, or, what is the same here, an empty one.
    cases hcell : row[column]? with
    | none => simpa [hcell] using ih
    | some s =>
      have htrimmed : (row.map Text.trim)[column]? = some (Text.trim s) := by simp [hcell]
      rw [List.filterMap_cons]
      simp only [htrimmed, Option.map_some, Option.getD_some, List.filter_cons, ih]

/-! ### Tables -/

/-- Whether cells are what a row holds, read under the types of the columns. -/
structure Reads (types : List TextType) (row : List String) (cells : Row) : Prop where
  length : cells.length = types.length
  /-- A cell is null where the row holds nothing, and else it is the value of what the row holds. -/
  cell : ∀ (column : Nat) (type : TextType), types[column]? = some type → ∃ c, cells[column]? = some c ∧
    (c.isNull = true ↔ textAt row column = "") ∧
    (textAt row column ≠ "" → type.read? (textAt row column) = some c)

/-- Whether a table has the columns of a header and the rows below it. -/
structure Tabulates (header : List String) (data : List (List String)) (types : List TextType)
    (t : Table) : Prop where
  /-- The table is as wide as the longest row, the header included. -/
  longest : ∃ row ∈ header :: data, row.length = types.length
  fits : ∀ row ∈ header :: data, row.length ≤ types.length
  names : t.schema.map Field.name = Text.headings header types.length
  columns : t.schema.map (fun f => (f.type, f.nullable)) = types.map fun type => (type.dataType, true)
  /-- The type of a column is the first under which all reads that the rows hold in it. -/
  typed : ∀ (column : Nat) (type : TextType), types[column]? = some type →
    type.Types (textsIn data column)
  /-- Each row below the header is a row of the table, in the same order. -/
  rows : List.Forall₂ (Reads types) data t.rows

/-- Whether the rows of a table come in batches of a size. -/
structure Batched (size : Nat) (t : Table) : Prop where
  nonempty : ∀ rows ∈ t.batches, rows ≠ []
  bounded : ∀ rows ∈ t.batches, rows.length ≤ max size 1
  /-- No batch but the last is shorter. -/
  full : ∀ rows ∈ t.batches.dropLast, rows.length = max size 1

/-- A row that took part in finding the types of the columns is read without a loss. -/
theorem reads_typedRow {data : List (List String)} {types : List TextType}
    (htypes : ∀ (column : Nat) (type : TextType), types[column]? = some type →
      type.Types (textsIn data column))
    {row : List String} (hrow : row ∈ data) : Reads types row (typedRow types (row.map Text.trim)) := by
  have hget := getElem?_typedRow types (row.map Text.trim)
  constructor
  · exact length_typedRow types _
  · intro column type htype
    refine ⟨type.cell (textAt row column), ?_, ?_⟩
    · rw [hget, htype, List.getElem?_map]
      rfl
    · by_cases hempty : textAt row column = ""
      · simp [hempty, TextType.cell, Cell.isNull]
      · have hmem : textAt row column ∈ textsIn data column := by
          simp only [textsIn, List.mem_filter, List.mem_map]
          exact ⟨⟨row, hrow, rfl⟩, by simpa using hempty⟩
        obtain ⟨c, hc⟩ := Option.isSome_iff_exists.mp ((htypes column type htype).reads _ hmem)
        have hcell : type.cell (textAt row column) = c := by
          simp [TextType.cell, hempty, hc]
        rw [hcell]
        simp [hempty, hc, TextType.isNull_of_read? hc]

/-- Batches that are cut from a list are full, but for the last one. -/
theorem batched_chunks (name : Option String) (schema : Schema) (size : Nat) (f : List String → Row)
    (data : List (List String)) :
    Batched size ⟨name, schema, (chunks size data).map fun rows => rows.map f⟩ := by
  constructor
  · intro rows hrows
    obtain ⟨piece, hpiece, rfl⟩ := List.mem_map.mp hrows
    have hlength := (length_le_of_mem_chunks size data piece hpiece).1
    intro hnone
    rw [List.map_eq_nil_iff.mp hnone] at hlength
    exact absurd hlength (by decide)
  · intro rows hrows
    obtain ⟨piece, hpiece, rfl⟩ := List.mem_map.mp hrows
    rw [List.length_map]
    exact (length_le_of_mem_chunks size data piece hpiece).2
  · intro rows hrows
    rw [← List.map_dropLast] at hrows
    obtain ⟨piece, hpiece, rfl⟩ := List.mem_map.mp hrows
    rw [List.length_map]
    exact length_of_mem_dropLast_chunks size data piece hpiece

/-- The columns and rows of a table that is cut into batches. -/
theorem tabulates_chunks {header : List String} {data : List (List String)} {types : List TextType}
    (hlongest : ∃ row ∈ header :: data, row.length = types.length)
    (hfits : ∀ row ∈ header :: data, row.length ≤ types.length)
    (htyped : ∀ (column : Nat) (type : TextType), types[column]? = some type →
      type.Types (textsIn data column)) (name : Option String) (size : Nat) :
    Tabulates header data types
      ⟨name, (Text.headings header types.length).zipWith (fun n type => ⟨n, type.dataType, true⟩) types,
        (chunks size (data.map fun row => row.map Text.trim)).map fun rows => rows.map (typedRow types)⟩ := by
  have hnames := Text.length_headings header types.length
  refine ⟨hlongest, hfits, ?_, ?_, htyped, ?_⟩
  · apply List.ext_getElem (by simp [hnames])
    intro column h h'
    simp
  · apply List.ext_getElem (by simp [hnames])
    intro column h h'
    simp
  · show List.Forall₂ (Reads types) data ((chunks size _).map _).flatten
    rw [← List.map_flatten, flatten_chunks, List.map_map, List.forall₂_map_right_iff, List.forall₂_same]
    exact fun row hrow => reads_typedRow htyped hrow

/-- The table of a grid, written down. -/
theorem toTable?_eq {grid : List (List String)} {header : List String} {data : List (List String)}
    (hrows : filledRows grid = header :: data) :
    ∃ types : List TextType, (∃ row ∈ header :: data, row.length = types.length) ∧
      (∀ row ∈ header :: data, row.length ≤ types.length) ∧
      (∀ (column : Nat) (type : TextType), types[column]? = some type → type.Types (textsIn data column)) ∧
      ∀ (name : Option String) (size : Nat), toTable? name grid size = some ⟨name,
        (Text.headings header types.length).zipWith (fun n type => ⟨n, type.dataType, true⟩) types,
        (chunks size (data.map fun row => row.map Text.trim)).map fun rows => rows.map (typedRow types)⟩ := by
  have hwidth : ((data.map fun row => row.map Text.trim).map List.length).foldl max
      (header.map Text.trim).length = (data.map List.length).foldl max header.length := by
    simp [Function.comp_def]
  obtain ⟨hlongest, hfits⟩ := List.max?_eq_some_iff.mp
    (List.max?_cons' : (header.length :: data.map List.length).max? = _)
  rw [← List.map_cons] at hlongest hfits
  refine ⟨columnTypes ((data.map List.length).foldl max header.length)
    (data.map fun row => row.map Text.trim), ?_, ?_, ?_, ?_⟩
  · rw [length_columnTypes]
    simpa [eq_comm] using hlongest
  · rw [length_columnTypes]
    simpa using hfits
  · intro column type htype
    have hcolumn := (List.getElem?_eq_some_iff.mp htype).1
    rw [length_columnTypes] at hcolumn
    rw [getElem?_columnTypes _ _ _ hcolumn, filter_filterMap_trim, Option.some.injEq] at htype
    exact htype ▸ TextType.types_infer _
  · intro name size
    unfold toTable?
    rw [visibleRows_eq, hrows, List.map_cons]
    dsimp only
    rw [hwidth, Text.headings_map_trim, length_columnTypes]

/-- A table shows the rows of its grid that hold something. -/
theorem of_toTable? {name : Option String} {grid : List (List String)} {size : Nat} {t : Table}
    (h : toTable? name grid size = some t) : t.name = name ∧ Batched size t ∧
      ∃ header data types, filledRows grid = header :: data ∧ Tabulates header data types t := by
  cases hrows : filledRows grid with
  | nil =>
    unfold toTable? at h
    rw [visibleRows_eq, hrows] at h
    cases h
  | cons header data =>
    obtain ⟨types, hlongest, hfits, htyped, htable⟩ := toTable?_eq hrows
    rw [htable] at h
    cases h
    exact ⟨rfl, batched_chunks _ _ _ _ _, header, data, types, rfl,
      tabulates_chunks hlongest hfits htyped name size⟩

/-- There is no table just when all cells are blank. Otherwise the first row that holds something is the
header, and each later one is a row of the table. The table is as wide as the longest of these rows, and a
cell is null just where the row holds nothing; else it is the value of the trimmed text under the first type
that all texts of the column read under. The rows come in full batches, but for the last one, and neither the
columns nor the rows depend on how large these are. -/
theorem toTable?_tabulates (name : Option String) (grid : List (List String)) (size : Nat) :
    (toTable? name grid size = none ↔ ∀ row ∈ grid, ∀ s ∈ row, Text.trim s = "") ∧
    (∀ t, toTable? name grid size = some t → t.name = name ∧ Batched size t ∧
      ∃ header data types, filledRows grid = header :: data ∧ Tabulates header data types t) ∧
    ∀ size', (toTable? name grid size').map (fun t => (t.schema, t.rows))
      = (toTable? name grid size).map fun t => (t.schema, t.rows) := by
  refine ⟨?_, fun t h => of_toTable? h, ?_⟩
  · rw [← filledRows_eq_nil]
    constructor
    · intro hnone
      cases hrows : filledRows grid with
      | nil => rfl
      | cons header data =>
        obtain ⟨types, -, -, -, htable⟩ := toTable?_eq hrows
        rw [htable] at hnone
        cases hnone
    · intro hrows
      unfold toTable?
      rw [visibleRows_eq, hrows]
      rfl
  · intro size'
    -- Batches of any size, one after another, are the same rows.
    unfold toTable?
    cases visibleRows grid with
    | nil => rfl
    | cons header data => simp only [Option.map_some, Table.rows, ← List.map_flatten, flatten_chunks]

/-- A blank row between two others is left out, and a row that is too short is not. -/
theorem toTable?_tabulates_prices :
    let grid := [["id", "price"], [" 1", "2.5"], ["", " "], ["2"]]
    ∃ t types, toTable? none grid 1 = some t ∧ Batched 1 t ∧
      Tabulates ["id", "price"] [[" 1", "2.5"], ["2"]] types t := by
  intro grid
  obtain ⟨hnone, hsome, -⟩ := toTable?_tabulates none grid 1
  have hrows : filledRows grid = [["id", "price"], [" 1", "2.5"], ["2"]] := by decide +kernel
  cases ht : toTable? none grid 1 with
  | none => exact absurd (hnone.mp ht ["id", "price"] (.head _) "id" (.head _)) (by decide +kernel)
  | some t =>
    obtain ⟨-, hbatched, header, data, types, hfilled, htable⟩ := hsome t ht
    rw [hrows] at hfilled
    cases hfilled
    exact ⟨t, types, rfl, hbatched, htable⟩

end Grid

end SourceTables

import SourceTables.Align
import SourceTables.Proofs.Outcome

/-!
# `SourceTables.Proofs.Plain`: rows by the names of their columns

A row of a file becomes a row of a table by looking each column up by its name: the first cell under the
name is put under the table's type, and there is a null where the file has no such column. The values of
the partition's keys come last.

This is what aligning does, which decides on the positions of the columns once for all rows of a file.

The theorems:

* `Snapshot.exists_batch_iff`: when there are rows of a table.
* `Snapshot.of_batch`: what they are.
-/

set_option autoImplicit false

namespace SourceTables

namespace Plain

/-- The cell of a column in a row. -/
def cell (stored : Schema) (row : Row) (f : Field DataType) : Cell :=
  match (stored.zip row).find? fun c => c.1.name == f.name with
  | some (g, c) => castCell g.type f.type c
  | none => .null

/-- The row of a table that a row of a file becomes. -/
def row (columns : Schema) (keys : List PartitionKey) (p : Partition) (stored : Schema) (r : Row) : Row :=
  columns.map (cell stored r) ++ keys.map fun key => ((p.value? key.name).getD .null).cell key.type

/-- Whether the columns of a file can be put under those of a table. -/
def Casts (stored columns : Schema) : Prop :=
  ∀ f ∈ columns, ∀ g ∈ stored, g.name = f.name → g.type.castsTo f.type = true

instance (stored columns : Schema) : Decidable (Casts stored columns) :=
  inferInstanceAs (Decidable (∀ f ∈ columns, ∀ g ∈ stored, g.name = f.name → g.type.castsTo f.type = true))

end Plain

/-- The column of a name is one of the columns and has the name. -/
theorem Schema.of_column? {s : Schema} {name : String} {g : Field DataType} (h : s.column? name = some g) :
    g ∈ s ∧ g.name = name := by
  refine ⟨List.mem_of_find?_eq_some h, ?_⟩
  simpa using List.find?_some h

namespace Snapshot

/-- A null stays null under every type. -/
theorem castCell_null (source target : DataType) : castCell source target .null = .null := by
  unfold castCell
  exact if_pos (by simp [Cell.isNull])

/-- A column that a file lacks is filled with nulls. -/
theorem dataSource_of_lacks {stored : Schema} {f : Field DataType} (hlacks : stored.column? f.name = none) :
    dataSource stored f = .ok (.constant .null) ∧ ∀ r : Row, Plain.cell stored r f = .null := by
  have hnames : ∀ g ∈ stored, (g.name == f.name) = false := by
    simpa [Schema.column?] using hlacks
  constructor
  · unfold dataSource
    rw [List.findIdx?_eq_none_iff.mpr hnames]
  · intro r
    have hnone : ((stored.zip r).find? fun c => c.1.name == f.name) = none := by
      rw [List.find?_eq_none]
      intro c hc
      rw [hnames c.1 (List.of_mem_zip hc).1]
      exact Bool.false_ne_true
    rw [Plain.cell, hnone]

/-- Whether by position or by name, the look-up of a column stops at the same place, and the cells there are
those of the column. -/
theorem exists_place {stored : Schema} {f g : Field DataType} (hg : stored.column? f.name = some g) :
    ∃ i, (stored.findIdx? fun g => g.name == f.name) = some i ∧ stored[i]? = some g ∧
      ∀ r : Row, Plain.cell stored r f = castCell g.type f.type (r[i]?.getD .null) := by
  unfold Schema.column? at hg
  induction stored with
  | nil => cases hg
  | cons h rest ih =>
    rw [List.find?_cons] at hg
    rw [List.findIdx?_cons]
    by_cases hname : (h.name == f.name) = true
    · rw [hname] at hg
      cases hg
      refine ⟨0, if_pos hname, rfl, fun r => ?_⟩
      -- A row may be too short.
      cases r with
      | nil => exact (castCell_null _ _).symm
      | cons c r => simp [Plain.cell, hname]
    · rw [Bool.not_eq_true] at hname
      rw [hname] at hg
      obtain ⟨i, hplace, hget, hcell⟩ := ih hg
      refine ⟨i + 1, ?_, hget, fun r => ?_⟩
      · rw [hname, hplace]
        rfl
      · cases r with
        | nil => exact (castCell_null _ _).symm
        | cons c r =>
          have hlater : Plain.cell (h :: rest) (c :: r) f = Plain.cell rest r f := by
            simp only [Plain.cell, List.zip_cons_cons, List.find?_cons, hname]
          exact hlater.trans (hcell r)

/-- A column that a file has is filled from the first place at which the file has its name. -/
theorem dataSource_of_column? {stored : Schema} {f g : Field DataType} (hg : stored.column? f.name = some g) :
    ∃ i, dataSource stored f = (castColumn g.type f.type).map (.stored i) ∧
      ∀ r : Row, Plain.cell stored r f = castCell g.type f.type (r[i]?.getD .null) := by
  obtain ⟨i, hplace, hget, hcell⟩ := exists_place hg
  refine ⟨i, ?_, hcell⟩
  unfold dataSource
  rw [hplace]
  dsimp only
  rw [hget]

/-- There is a source for a column just when the cells that a file has under its name can be put under the
type of the column. -/
theorem exists_dataSource_iff {stored : Schema} {f : Field DataType} :
    (∃ source, dataSource stored f = .ok source) ↔
      ∀ g, stored.column? f.name = some g → g.type.castsTo f.type = true := by
  cases hg : stored.column? f.name with
  | none => simp [(dataSource_of_lacks hg).1]
  | some g =>
    obtain ⟨i, hsource, -⟩ := dataSource_of_column? hg
    rw [hsource]
    unfold castColumn
    split
    · next hcasts => simpa [Except.map] using hcasts
    · next hcasts => simpa [Except.map] using hcasts

/-- The source of a column fills it by name. -/
theorem cell_of_dataSource {stored : Schema} {f : Field DataType} {source : ColumnSource}
    (h : dataSource stored f = .ok source) (r : Row) : source.cell r = Plain.cell stored r f := by
  cases hg : stored.column? f.name with
  | none =>
    obtain ⟨hsource, hcell⟩ := dataSource_of_lacks hg
    rw [hsource] at h
    cases h
    exact (hcell r).symm
  | some g =>
    obtain ⟨i, hsource, hcell⟩ := dataSource_of_column? hg
    rw [hsource] at h
    unfold castColumn at h
    split at h
    · cases h
      exact (hcell r).symm
    · cases h

theorem cells_of_dataSources {stored columns : Schema} {sources : List ColumnSource}
    (h : List.Forall₂ (fun f source => dataSource stored f = .ok source) columns sources) (r : Row) :
    sources.map (ColumnSource.cell r) = columns.map (Plain.cell stored r) := by
  induction h with
  | nil => rfl
  | cons hfirst _ ih => rw [List.map_cons, List.map_cons, cell_of_dataSource hfirst, ih]

/-- There is a batch of a table just when the cells of each column can be put under its type. -/
theorem exists_batch_iff {s : Snapshot} {p : Partition} {stored : Batch} :
    (∃ b, s.batch p stored = .ok b) ↔
      ∀ f ∈ s.dataSchema, ∀ g, stored.schema.column? f.name = some g → g.type.castsTo f.type = true := by
  -- Aligning fails nowhere but where the sources of the columns are decided on.
  have hsources : (∃ b, s.batch p stored = .ok b) ↔
      ∃ sources, s.dataSchema.mapM (dataSource stored.schema) = .ok sources := by
    unfold Snapshot.batch columnSources
    cases s.dataSchema.mapM (dataSource stored.schema) <;>
      simp [Except.map, bind, Except.bind, pure, Except.pure]
  rw [hsources, Outcome.exists_mapM_eq_ok]
  exact forall₂_congr fun f _ => exists_dataSource_iff

/-- A batch of a table has its rows by name. -/
theorem of_batch {s : Snapshot} {p : Partition} {stored b : Batch} (h : s.batch p stored = .ok b) :
    b = ⟨s.schema, stored.rows.map (Plain.row s.dataSchema s.keys p stored.schema)⟩ := by
  unfold Snapshot.batch columnSources at h
  cases hsources : s.dataSchema.mapM (dataSource stored.schema) with
  | error e =>
    rw [hsources] at h
    cases h
  | ok sources =>
    rw [hsources] at h
    cases h
    have hrow (r : Row) : (sources ++ s.keys.map (keySource p)).map (ColumnSource.cell r)
        = Plain.row s.dataSchema s.keys p stored.schema r := by
      rw [List.map_append, cells_of_dataSources (Outcome.mapM_eq_ok.mp hsources), List.map_map]
      rfl
    unfold align
    simp only [hrow]

/-- Where all casts are possible, there is a batch of the table. -/
theorem batch_eq {s : Snapshot} (p : Partition) {stored : Batch}
    (hcasts : Plain.Casts stored.schema s.dataSchema) :
    s.batch p stored
      = .ok ⟨s.schema, stored.rows.map (Plain.row s.dataSchema s.keys p stored.schema)⟩ := by
  have hexists : ∃ b, s.batch p stored = .ok b := by
    rw [exists_batch_iff]
    intro f hf g hg
    obtain ⟨hmem, hname⟩ := Schema.of_column? hg
    exact hcasts f hf g hmem hname
  obtain ⟨b, hb⟩ := hexists
  rw [hb, of_batch hb]

end Snapshot

end SourceTables

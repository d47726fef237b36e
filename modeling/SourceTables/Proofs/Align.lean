import SourceTables.Proofs.Cast
import SourceTables.Proofs.Plain

/-!
# `SourceTables.Proofs.Align`: the rows of a table whose columns were merged

The schema of a table is merged from those of its artifacts, and the rows of each artifact are then put
under it. Which type a column has is decided by the first of these and whether a cell has a place there
by the second. Nothing but structures can be left without a place: next to values of another type they
would have to become texts, and there are no texts of structures.

The columns are filled by name, and a name leads to the first column of a file that has it. A column after
it with the same name is never looked at, and no other column of the table stands in for it: its values are
lost. So a table shows all columns of a file just when no two of them have the same name.

The theorems:

* `Snapshot.castsTo_merged_iff`: when the cells of an artifact's column go under the merged column.
* `Snapshot.batch_of_merged`: when an artifact has rows in the table, and what they are.
* `Plain.fills_iff`: which column of a file fills a column of a table.
* `Schema.nodup_iff_fills`: when merged columns show all columns of a file.
-/

set_option autoImplicit false

namespace SourceTables

/-! ### Rows under a schema -/

/-- Whether a row has a cell for each column, null or a value of its type. -/
def Schema.admits (s : Schema) (r : Row) : Bool := Cell.haveTypes s r

/-- The first cell of a row under a name. -/
def Schema.cell? (s : Schema) (r : Row) (name : String) : Option Cell :=
  ((s.zip r).find? fun c => c.1.name == name).map Prod.snd

theorem Schema.admits_iff {s : Schema} {r : Row} :
    s.admits r = true ↔ List.Forall₂ (fun f c => Cell.hasType f.type c = true) s r := by
  unfold Schema.admits
  induction s generalizing r with
  | nil => cases r <;> simp [Cell.haveTypes]
  | cons f rest ih => cases r <;> simp [Cell.haveTypes, ih]

/-- A row has a cell for the first column of each name, and this is the one that a table's column is
filled from. -/
theorem Schema.cell?_of_admits {s : Schema} {r : Row} (hrow : s.admits r = true) {name : String}
    {g : Field DataType} (hg : s.column? name = some g) :
    ∃ c, s.cell? r name = some c ∧ c.hasType g.type = true ∧
      ∀ f : Field DataType, f.name = name → Plain.cell s r f = castCell g.type f.type c := by
  rw [Schema.admits_iff] at hrow
  unfold Schema.column? at hg
  -- The look-up goes along the columns; the cells of the row go along with them.
  induction hrow with
  | nil => cases hg
  | @cons h c rest cells hfirst _ ih =>
    rw [List.find?_cons] at hg
    by_cases hname : (h.name == name) = true
    · rw [hname] at hg
      cases hg
      refine ⟨c, by simp [Schema.cell?, hname], hfirst, ?_⟩
      rintro f rfl
      simp [Plain.cell, hname]
    · rw [Bool.not_eq_true] at hname
      rw [hname] at hg
      obtain ⟨c', hcell, htype, hfill⟩ := ih hg
      refine ⟨c', ?_, htype, ?_⟩
      · rw [← hcell]
        simp only [Schema.cell?, List.zip_cons_cons, List.find?_cons, hname]
      · rintro f rfl
        rw [← hfill f rfl]
        simp only [Plain.cell, List.zip_cons_cons, List.find?_cons, hname]

/-- Where names are not repeated, a column's cell is found by its name, whatever columns come later. -/
theorem Schema.cell?_map_append {columns : Schema} (hnodup : (columns.map Field.name).Nodup)
    {f : Field DataType} (hf : f ∈ columns) (fill : Field DataType → Cell) (others : Schema) (cells : Row) :
    Schema.cell? (columns ++ others) (columns.map fill ++ cells) f.name = some (fill f) := by
  induction columns with
  | nil => cases hf
  | cons h rest ih =>
    obtain ⟨hnew, hrest⟩ := List.nodup_cons.mp hnodup
    obtain rfl | hf := List.mem_cons.mp hf
    · simp [Schema.cell?]
    · have hname : (h.name == f.name) = false := by
        rw [beq_eq_false_iff_ne]
        intro heq
        exact hnew (heq ▸ List.mem_map_of_mem hf)
      rw [← ih hrest hf]
      simp only [Schema.cell?, List.map_cons, List.cons_append, List.zip_cons_cons, List.find?_cons, hname]

namespace Snapshot

/-! ### Columns of an artifact in the table -/

/-- Whether an artifact's column is shown: it is the first of its name, and no key has the name. -/
def Shows (keys : List PartitionKey) (stored : Schema) (g : Field DataType) : Prop :=
  stored.column? g.name = some g ∧ ∀ k ∈ keys, k.name ≠ g.name

theorem mem_dataColumns {keys : List PartitionKey} {columns : Schema} {f : Field DataType} :
    f ∈ dataColumns keys columns ↔ f ∈ columns ∧ ∀ k ∈ keys, k.name ≠ f.name := by
  simp [dataColumns, List.mem_filter]

variable {schemas : List Schema} {stored : Schema}

/-- A merged column has the type that all columns of its name give way to, an artifact's among them. -/
theorem type_of_merged (hstored : stored ∈ schemas) {f g : Field DataType} (hf : f ∈ Schema.merge schemas)
    (hg : stored.column? f.name = some g) :
    g.name = f.name ∧ g.type ∈ Schema.typesOf schemas.flatten f.name ∧
      f.type = DataType.joinAll (Schema.typesOf schemas.flatten f.name) := by
  obtain ⟨hmem, hname⟩ := Schema.of_column? hg
  have hall : g ∈ schemas.flatten := List.mem_flatten.mpr ⟨stored, hstored, hmem⟩
  refine ⟨hname, ?_, (((Schema.merged_merge schemas).mem_iff f).mp hf).2.2⟩
  exact List.mem_map.mpr ⟨g, List.mem_filter.mpr ⟨hall, beq_iff_eq.mpr hname⟩, rfl⟩

/-- The cells of an artifact's column go under the merged column, unless they are structures and an
artifact has other values under the name. -/
theorem castsTo_merged_iff (hstored : stored ∈ schemas) {f g : Field DataType}
    (hf : f ∈ Schema.merge schemas) (hg : stored.column? f.name = some g) :
    g.type.castsTo f.type = true ↔
      (g.type.isStruct = true → ∀ t ∈ Schema.typesOf schemas.flatten g.name, t = .null ∨ t = g.type) := by
  obtain ⟨hname, hmem, htype⟩ := type_of_merged hstored hf hg
  rw [htype, hname]
  exact DataType.castsTo_joinAll_iff hmem

/-- A column that is shown has a merged column. -/
theorem exists_merged (hstored : stored ∈ schemas) {keys : List PartitionKey} {g : Field DataType}
    (hg : Shows keys stored g) : ∃ f ∈ dataColumns keys (Schema.merge schemas), f.name = g.name := by
  obtain ⟨hcolumn, hkeys⟩ := hg
  have hall : g ∈ schemas.flatten := List.mem_flatten.mpr ⟨stored, hstored, (Schema.of_column? hcolumn).1⟩
  have hname := ((Schema.merged_merge schemas).mem_names g.name).mpr (List.mem_map_of_mem hall)
  obtain ⟨f, hf, hfg⟩ := List.mem_map.mp hname
  refine ⟨f, mem_dataColumns.mpr ⟨hf, ?_⟩, hfg⟩
  rw [hfg]
  exact hkeys

/-! ### Rows of an artifact in the table -/

/-- The cells of a row that is put under a table's columns are of their types. -/
theorem admits_row {s : Snapshot} {p : Partition} {r : Row} (hrow : stored.admits r = true)
    (hschema : s.schema = s.dataSchema ++ keyColumns s.keys)
    (hcasts : ∀ f ∈ s.dataSchema, ∀ g, stored.column? f.name = some g → g.type.castsTo f.type = true) :
    s.schema.admits (Plain.row s.dataSchema s.keys p stored r) = true := by
  rw [Schema.admits_iff, hschema]
  -- The columns of the data are filled by name, and those of the keys from the partition.
  refine List.rel_append ?_ ?_
  · rw [List.forall₂_map_right_iff, List.forall₂_same]
    intro f hf
    cases hg : stored.column? f.name with
    | none =>
      rw [(dataSource_of_lacks hg).2]
      rfl
    | some g =>
      obtain ⟨c, -, htype, hfill⟩ := Schema.cell?_of_admits hrow hg
      rw [hfill f rfl]
      exact hasType_castCell (hcasts f hf g hg) htype
  · unfold keyColumns
    rw [List.forall₂_map_left_iff, List.forall₂_map_right_iff, List.forall₂_same]
    exact fun key _ => Literal.hasType_cell key.type _

/-- The table of merged columns has rows for an artifact just when each structure that it shows stands
beside nothing but nulls and structures of the same members. There are as many as the artifact has, they
are under the table's schema, and a cell is null where the artifact's is. -/
theorem batch_of_merged (schemas : List Schema) (keys : List PartitionKey) (entries : List PartitionEntry)
    (conversions : LedgerMap) (now : Nat) (p : Partition) (b : Batch) (hstored : b.schema ∈ schemas)
    (hrows : ∀ r ∈ b.rows, b.schema.admits r = true) :
    let s := build keys entries conversions (Schema.merge schemas) now
    ((∃ b', s.batch p b = .ok b') ↔
      ∀ g, Shows keys b.schema g → g.type.isStruct = true →
        ∀ t ∈ Schema.typesOf schemas.flatten g.name, t = .null ∨ t = g.type) ∧
    ∀ b', s.batch p b = .ok b' →
      b'.schema = s.schema ∧ b'.rows.length = b.rows.length ∧
      (∀ r ∈ b'.rows, s.schema.admits r = true) ∧
      List.Forall₂ (fun r r' => ∀ g, Shows keys b.schema g →
        ∃ c c', b.schema.cell? r g.name = some c ∧ s.schema.cell? r' g.name = some c' ∧
          c'.isNull = c.isNull) b.rows b'.rows := by
  intro s
  constructor
  · rw [exists_batch_iff]
    constructor
    · intro hcasts g hg
      obtain ⟨f, hf, hname⟩ := exists_merged hstored hg
      have hcolumn : b.schema.column? f.name = some g := hname ▸ hg.1
      exact (castsTo_merged_iff hstored (mem_dataColumns.mp hf).1 hcolumn).mp (hcasts f hf g hcolumn)
    · intro hall f hf g hg
      obtain ⟨hmerged, hkeys⟩ := mem_dataColumns.mp hf
      have hname := (Schema.of_column? hg).2
      exact (castsTo_merged_iff hstored hmerged hg).mpr (hall g ⟨hname ▸ hg, hname ▸ hkeys⟩)
  · intro b' hb'
    have hcasts := exists_batch_iff.mp ⟨b', hb'⟩
    rw [of_batch hb']
    refine ⟨rfl, List.length_map _, ?_, ?_⟩
    · intro r' hr'
      obtain ⟨r, hr, rfl⟩ := List.mem_map.mp hr'
      exact admits_row (hrows r hr) rfl hcasts
    · rw [List.forall₂_map_right_iff, List.forall₂_same]
      intro r hr g hg
      obtain ⟨f, hf, hname⟩ := exists_merged hstored hg
      obtain ⟨c, hcell, -, hfill⟩ := Schema.cell?_of_admits (hrows r hr) hg.1
      -- A merged name is not repeated, so the table has the cell under the name as well.
      have hnodup : (s.dataSchema.map Field.name).Nodup :=
        (Schema.merged_merge schemas).nodup.sublist (List.filter_sublist.map _)
      refine ⟨c, castCell g.type f.type c, hcell, ?_, isNull_castCell _ _ _⟩
      rw [← hname, ← hfill f hname]
      exact Schema.cell?_map_append hnodup hf _ _ _

/-- Structures have a place in a table where another artifact has no such column. -/
theorem batch_of_orders :
    let orders : Schema := [⟨"id", .int64, true⟩, ⟨"item", .struct [⟨"price", .float64, true⟩], true⟩]
    let notes : Schema := [⟨"id", .utf8, true⟩]
    let s := build [⟨"day", .integer⟩] [] Keyed.empty (Schema.merge [notes, orders]) 0
    ∃ b', s.batch ⟨[("day", .integer 5)], ⟨"day=5"⟩, [⟨"day=5/a.json"⟩]⟩
        ⟨orders, [[.int 7, .struct [.null]], [.null, .null]]⟩ = .ok b' ∧
      b'.rows.length = 2 ∧ ∀ r ∈ b'.rows, s.schema.admits r = true := by
  intro orders notes s
  obtain ⟨hexists, hresult⟩ := batch_of_merged [notes, orders] [⟨"day", .integer⟩] [] Keyed.empty 0
    ⟨[("day", .integer 5)], ⟨"day=5"⟩, [⟨"day=5/a.json"⟩]⟩
    ⟨orders, [[.int 7, .struct [.null]], [.null, .null]]⟩ (by decide) (by decide)
  have hstructs : ∀ g ∈ orders, g.type.isStruct = true →
      ∀ t ∈ Schema.typesOf [notes, orders].flatten g.name, t = .null ∨ t = g.type := by
    decide
  obtain ⟨b', hb'⟩ := hexists.mpr fun g hg => hstructs g (Schema.of_column? hg.1).1
  obtain ⟨-, hlength, hadmits, -⟩ := hresult b' hb'
  exact ⟨b', hb', hlength, hadmits⟩

/-- A table of structures and numbers under one name has no rows for the artifact with the structures. -/
example :
    let orders : Schema := [⟨"item", .struct [⟨"price", .float64, true⟩], true⟩]
    let counts : Schema := [⟨"item", .int64, true⟩]
    ((build [] [] Keyed.empty (Schema.merge [orders, counts]) 0).batch ⟨[], ⟨""⟩, []⟩
      ⟨orders, [[.struct [.null]]]⟩).toOption.isNone = true := by
  decide

end Snapshot

/-! ### Columns that a table shows -/

/-- Whether a column of a table is filled from a column of a file: whatever a row of the file has there, put
under the table's type, is what the row of the table has. -/
def Plain.Fills (stored : Schema) (f : Field DataType) (column : Nat) : Prop :=
  ∃ g, stored[column]? = some g ∧ g.name = f.name ∧
    ∀ r : Row, Plain.cell stored r f = castCell g.type f.type (r[column]?.getD .null)

/-- A column of a table is filled from the first column of its name and from no other. -/
theorem Plain.fills_iff {stored : Schema} {f : Field DataType} {column : Nat} :
    Fills stored f column ↔ (stored.findIdx? fun g => g.name == f.name) = some column := by
  constructor
  · rintro ⟨g, hg, hname, hfill⟩
    have hcolumn : column < stored.length := (List.getElem?_eq_some_iff.mp hg).1
    obtain ⟨first, hfirst⟩ : ∃ first, stored.column? f.name = some first := by
      apply Option.isSome_iff_exists.mp
      rw [Schema.column?, List.find?_isSome]
      exact ⟨g, List.mem_of_getElem? hg, by simpa using hname⟩
    obtain ⟨i, hplace, -, hcell⟩ := Snapshot.exists_place hfirst
    rw [hplace]
    -- A row that has a value in this column alone tells where the table looks.
    let r : Row := (List.replicate stored.length Cell.null).set column (.bool true)
    have hhere : r[column]? = some (.bool true) := by simp [r, hcolumn]
    by_contra hne
    have hthere : (r[i]?.getD .null) = .null := by
      have hi : column ≠ i := fun h => hne (congrArg some h.symm)
      simp only [r, List.getElem?_set_ne hi, List.getElem?_replicate]
      split <;> rfl
    have hnull := congrArg Cell.isNull ((hfill r).symm.trans (hcell r))
    rw [isNull_castCell, isNull_castCell, hhere, hthere] at hnull
    exact absurd hnull (by decide)
  · intro hplace
    obtain ⟨hcolumn, hname, -⟩ := List.findIdx?_eq_some_iff_getElem.mp hplace
    obtain ⟨first, hfirst⟩ : ∃ first, stored.column? f.name = some first := by
      apply Option.isSome_iff_exists.mp
      rw [Schema.column?, List.find?_isSome]
      exact ⟨stored[column], List.getElem_mem hcolumn, hname⟩
    obtain ⟨i, hplace', hget, hcell⟩ := Snapshot.exists_place hfirst
    rw [hplace, Option.some.injEq] at hplace'
    subst hplace'
    exact ⟨first, hget, (Schema.of_column? hfirst).2, hcell⟩

namespace Schema

variable {schemas : List Schema} {stored : Schema}

/-- Merged columns show all columns of a file just when no two of these have the same name. -/
theorem nodup_iff_fills (hstored : stored ∈ schemas) :
    (stored.map Field.name).Nodup ↔
      ∀ column < stored.length, ∃ f ∈ merge schemas, Plain.Fills stored f column := by
  simp only [Plain.fills_iff]
  constructor
  · intro hnodup column hcolumn
    have hname : stored[column].name ∈ schemas.flatten.map Field.name :=
      List.mem_map_of_mem (List.mem_flatten.mpr ⟨stored, hstored, List.getElem_mem hcolumn⟩)
    obtain ⟨f, hf, hfname⟩ := List.mem_map.mp (((merged_merge schemas).mem_names _).mpr hname)
    refine ⟨f, hf, List.findIdx?_eq_some_iff_getElem.mpr ⟨hcolumn, by simp [hfname], ?_⟩⟩
    intro earlier hearlier hsame
    rw [hfname, beq_iff_eq] at hsame
    -- Names before the column are others.
    have hlength : (stored.map Field.name).length = stored.length := List.length_map _
    have hdiffers := List.pairwise_iff_getElem.mp hnodup earlier column (by omega) (by omega) hearlier
    rw [List.getElem_map, List.getElem_map] at hdiffers
    exact hdiffers hsame
  · intro hall
    apply List.pairwise_iff_getElem.mpr
    intro i j hi hj hlt heq
    rw [List.length_map] at hi hj
    -- Nothing is filled from the later of two columns with one name.
    obtain ⟨f, -, hfill⟩ := hall j hj
    obtain ⟨_, hname, hfirst⟩ := List.findIdx?_eq_some_iff_getElem.mp hfill
    rw [List.getElem_map, List.getElem_map] at heq
    rw [← heq] at hname
    exact hfirst i hlt hname

end Schema

end SourceTables

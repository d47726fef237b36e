import SourceTables.Format.Decode
import SourceTables.Proofs.Align
import SourceTables.Proofs.Grid
import SourceTables.Proofs.Json.Shape

/-!
# `SourceTables.Proofs.Format.Columns`: the names of decoded columns

Tables are merged and aligned by the names of their columns, so a decoder has to tell columns apart. Grids
number the names that their headers repeat, and objects gather their members by key. Delimited text takes its
names from the header as they are: where the header repeats one, so does the table, and a scan shows the
first of the columns alone.

The theorems:

* `Delimited.map_name_table`: the names of delimited text are those in its header.
* `Format.nodup_of_decode`: when the columns of decoded tables have different names.
* `Format.shows_of_decode`: when each of them has a column of its own in a table.
* `Format.not_shows_of_header`: a header that repeats a name.
-/

set_option autoImplicit false

namespace SourceTables

namespace Delimited

/-- The names in a header: the texts of the first record. -/
def headerNames : List Record → List String
  | [] => []
  | header :: _ => header.texts.toOption.getD []

theorem length_columnTypes (width : Nat) :
    ∀ rows : List (List String), (columnTypes width rows).length = width := by
  induction width with
  | zero => intro rows; rfl
  | succ width ih => intro rows; simp [columnTypes, ih]

theorem map_name_inferSchema {limit : Nat} {all : List Record} {schema : Schema}
    (h : inferSchema limit all = .ok schema) : schema.map Field.name = headerNames all := by
  cases all with
  | nil =>
    cases h
    rfl
  | cons header rest =>
    obtain ⟨names, hnames, h⟩ := Outcome.bind_eq_ok.mp h
    obtain ⟨rows, -, h⟩ := Outcome.bind_eq_ok.mp h
    cases h
    have hlength := length_columnTypes names.length rows
    rw [headerNames, hnames]
    apply List.ext_getElem (by simp [hlength, Except.toOption])
    intro column hi hi'
    simp [Except.toOption]

/-- The names of delimited text are those in its header. -/
theorem map_name_table {delimiter : UInt8} {options : ConvertOptions} {bytes : Bytes} {t : Table}
    (h : table delimiter options bytes = .ok t) :
    t.schema.map Field.name = headerNames (records delimiter bytes) := by
  obtain ⟨schema, hschema, h⟩ := Outcome.bind_eq_ok.mp h
  rw [← map_name_inferSchema hschema]
  dsimp only at h
  split at h
  · cases h
  · obtain ⟨batches, -, h⟩ := Outcome.bind_eq_ok.mp h
    cases h
    rfl

end Delimited

namespace Format

variable {fs : Files} {p : Path} {options : ConvertOptions} {tables : List Table}

/-- The names in the header of a file with delimited text. -/
def headerNames (fs : Files) (p : Path) : List String :=
  match fs.content p with
  | .error _ => []
  | .ok bytes => Delimited.headerNames (Delimited.records (UInt8.ofNat (delimiter p).toNat) bytes)

theorem map_name_decodeDelimited (h : decodeDelimited fs p options = .ok tables) :
    ∀ t ∈ tables, t.schema.map Field.name = headerNames fs p := by
  unfold decodeDelimited at h
  unfold headerNames
  split at h
  · cases h
  · cases h
  · next bytes hcontent =>
    rw [hcontent]
    split at h
    · next table htable =>
      cases h
      intro t ht
      rw [List.mem_singleton.mp ht]
      exact Delimited.map_name_table htable
    · cases h

theorem nodup_decodeJson (h : decodeJson fs p options = .ok tables) :
    ∀ t ∈ tables, (t.schema.map Field.name).Nodup := by
  unfold decodeJson at h
  split at h
  · cases h
  · cases h
  · split at h
    · obtain ⟨table, htable, rfl⟩ := Outcome.map_eq_ok.mp h
      intro t ht
      rw [List.mem_singleton.mp ht]
      exact Json.nodup_recordsTable htable
    · exact Json.nodup_tables h

/-- The columns of a grid have different names. -/
theorem nodup_tablesOfGrids {grids : List (String × List (List String))} :
    ∀ t ∈ tablesOfGrids options grids, (t.schema.map Field.name).Nodup := by
  intro t ht
  obtain ⟨⟨name, grid⟩, -, htable⟩ := List.mem_filterMap.mp ht
  obtain ⟨-, -, header, data, types, -, htabulates⟩ := Grid.of_toTable? htable
  rw [htabulates.names]
  exact Text.nodup_headings header types.length

theorem nodup_decodeOffice {f : Format}
    {grids : Office.Package → Except Error (List (String × List (List String)))}
    (h : decodeOffice fs p options f grids = .ok tables) :
    ∀ t ∈ tables, (t.schema.map Field.name).Nodup := by
  obtain ⟨package, -, h⟩ := Outcome.bind_eq_ok.mp h
  obtain ⟨found, -, h⟩ := Outcome.bind_eq_ok.mp h
  cases h
  exact nodup_tablesOfGrids

/-- The columns of a decoded table have different names, but for those of delimited text whose header
repeats one. -/
theorem nodup_of_decode {f : Format} (h : f.decode fs p options = .ok tables) {t : Table}
    (ht : t ∈ tables) :
    (t.schema.map Field.name).Nodup ↔ (f = .delimited → (headerNames fs p).Nodup) := by
  have hother (hf : f ≠ .delimited) (hnodup : ∀ t ∈ tables, (t.schema.map Field.name).Nodup) :
      (t.schema.map Field.name).Nodup ↔ (f = .delimited → (headerNames fs p).Nodup) :=
    ⟨fun _ hdelimited => absurd hdelimited hf, fun _ => hnodup t ht⟩
  cases f with
  | delimited =>
    rw [map_name_decodeDelimited h t ht]
    simp
  | native =>
    cases h
    cases ht
  | json => exact hother nofun (nodup_decodeJson h)
  | spreadsheet | document | presentation => exact hother nofun (nodup_decodeOffice h)
  | markdown =>
    refine hother nofun ?_
    obtain ⟨bytes, -, h⟩ := Outcome.bind_eq_ok.mp h
    split at h
    · cases h
    · cases h
      exact nodup_tablesOfGrids
  | html =>
    refine hother nofun ?_
    obtain ⟨bytes, -, h⟩ := Outcome.bind_eq_ok.mp h
    cases h
    exact nodup_tablesOfGrids

/-- The columns of a decoded table have different names, but for those of delimited text whose header
repeats one. Just then each of them has a column of its own in every table that is merged from it and
others: no two are shown by one column, and a scan fills the columns of its rows in this way. -/
theorem shows_of_decode {f : Format} (h : f.decode fs p options = .ok tables) {t : Table} (ht : t ∈ tables)
    {schemas : List Schema} (hmerged : t.schema ∈ schemas) :
    ((t.schema.map Field.name).Nodup ↔ (f = .delimited → (headerNames fs p).Nodup)) ∧
    ((∀ column < t.schema.length, ∃ g ∈ Schema.merge schemas, Plain.Fills t.schema g column) ↔
      (f = .delimited → (headerNames fs p).Nodup)) ∧
    (∀ g column column', Plain.Fills t.schema g column → Plain.Fills t.schema g column' →
      column = column') ∧
    ∀ (keys : List PartitionKey) (entries : List PartitionEntry) (conversions : LedgerMap) (now : Nat)
      (partition : Partition) (rows : List Row) (b : Batch),
      (Snapshot.build keys entries conversions (Schema.merge schemas) now).batch partition ⟨t.schema, rows⟩
          = .ok b →
        b.rows = rows.map (Plain.row (Snapshot.dataColumns keys (Schema.merge schemas)) keys partition
          t.schema) := by
  have hnodup := nodup_of_decode h ht
  refine ⟨hnodup, (Schema.nodup_iff_fills hmerged).symm.trans hnodup, ?_, ?_⟩
  · intro g column column' hfill hfill'
    rw [Plain.fills_iff] at hfill hfill'
    rw [hfill, Option.some.injEq] at hfill'
    exact hfill'
  · intro keys entries conversions now partition rows b hb
    rw [Snapshot.of_batch hb]
    rfl

/-- A file `t.csv` with a text. -/
def delimitedFile (text : String) : Files where
  nodes := ⟨[(["t.csv"], .file (Text.encodeUtf8 text) 1)]⟩
  home := []
  clock := 2

/-- Two columns with different names are both shown. -/
theorem shows_of_header :
    ∃ tables, Format.delimited.decode (delimitedFile "a,b\n1,2\n") ⟨"t.csv"⟩ ⟨.parquet, 8, 8⟩ = .ok tables ∧
      ∃ t ∈ tables, t.schema.length = 2 ∧ ∀ column < t.schema.length,
        ∃ g ∈ Schema.merge [t.schema], Plain.Fills t.schema g column := by
  have hdecode : (Format.delimited.decode (delimitedFile "a,b\n1,2\n") ⟨"t.csv"⟩
      ⟨.parquet, 8, 8⟩).toOption.map (List.map Table.schema)
        = some [[⟨"a", .int64, true⟩, ⟨"b", .int64, true⟩]] := by decide +kernel
  obtain ⟨tables, htables, hschemas⟩ := Option.map_eq_some_iff.mp hdecode
  obtain ⟨t, rest, rfl, hschema, -⟩ := List.map_eq_cons_iff.mp hschemas
  have h := Outcome.eq_ok_of_toOption htables
  have hheader : (headerNames (delimitedFile "a,b\n1,2\n") ⟨"t.csv"⟩).Nodup := by decide +kernel
  have hmerged : t.schema ∈ [t.schema] := .head _
  have hshown := (shows_of_decode h (.head _) hmerged).2.1
  exact ⟨_, h, t, .head _, by rw [hschema]; rfl, hshown.mpr fun _ => hheader⟩

/-- A header that repeats a name leaves no column for the second of its fields. -/
theorem not_shows_of_header :
    ∃ tables, Format.delimited.decode (delimitedFile "a,a\n1,2\n") ⟨"t.csv"⟩ ⟨.parquet, 8, 8⟩ = .ok tables ∧
      ∃ t ∈ tables, ¬ (t.schema.map Field.name).Nodup ∧ t.schema.length = 2 ∧
        ∀ g ∈ Schema.merge [t.schema], ¬ Plain.Fills t.schema g 1 := by
  have hdecode : (Format.delimited.decode (delimitedFile "a,a\n1,2\n") ⟨"t.csv"⟩
      ⟨.parquet, 8, 8⟩).toOption.map (List.map Table.schema)
        = some [[⟨"a", .int64, true⟩, ⟨"a", .int64, true⟩]] := by decide +kernel
  obtain ⟨tables, htables, hschemas⟩ := Option.map_eq_some_iff.mp hdecode
  obtain ⟨t, rest, rfl, hschema, -⟩ := List.map_eq_cons_iff.mp hschemas
  refine ⟨_, Outcome.eq_ok_of_toOption htables, t, .head _, ?_, ?_, ?_⟩
  · rw [hschema]
    decide
  · rw [hschema]
    rfl
  · rw [hschema]
    simp only [Plain.fills_iff]
    decide

end Format

end SourceTables

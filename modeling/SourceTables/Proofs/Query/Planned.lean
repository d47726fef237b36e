import SourceTables.Proofs.LiveTable.Proper
import SourceTables.Proofs.Query.Pruning
import SourceTables.Proofs.Scan.Streams

/-!
# `SourceTables.Proofs.Query.Planned`: plans over tables that change

A query is planned against the snapshot that a table has at that time. When the scan is set up, the table may
have been refreshed any number of times: a column may have become a key or the other way round, with the
columns of the table left as they are. The predicate is made of the filters for the planned keys and is
evaluated on the partitions of the snapshot that is read, which may have other keys.

Two facts make this sound. What is read has the planned columns, so that a row is the same to the query by
whichever snapshot it is shown. And a row of a proper snapshot has under the name of each key the value of its
partition, since no other column has this name, so that the predicate is never contradicted by the row; for a
name that is no key of the partition the predicate abstains.

The theorems:

* `Snapshot.Proper.carries`: a row of a proper snapshot has the values of its partition.
* `Session.plan_of_later`: a plan keeps the columns that were planned, all of its rows are of one snapshot,
  and none on which the filters are true is left out.
-/

set_option autoImplicit false

namespace SourceTables

open Scan (Load)

/-! ### Rows by the names of their columns -/

/-- Where names are not repeated, a cell is found by the name of its column. -/
theorem Schema.cell?_of_mem_zip {s : Schema} {row : Row} (hnodup : (s.map Field.name).Nodup)
    {f : Field DataType} {c : Cell} (h : (f, c) ∈ s.zip row) : s.cell? row f.name = some c := by
  induction s generalizing row with
  | nil => cases h
  | cons g rest ih =>
    cases row with
    | nil => cases h
    | cons first cells =>
      obtain ⟨hnew, hrest⟩ := List.nodup_cons.mp hnodup
      obtain heq | hlater := List.mem_cons.mp h
      · cases heq
        simp [Schema.cell?]
      · have hne : (g.name == f.name) = false := by
          rw [beq_eq_false_iff_ne]
          rintro heq
          exact hnew (heq ▸ List.mem_map_of_mem (List.of_mem_zip hlater).1)
        rw [← ih hrest hlater]
        simp only [Schema.cell?, List.zip_cons_cons, List.find?_cons, hne]

/-- Whether a query sees the cells of a row under the names of their columns. -/
def RowReading.Reads (reading : RowReading) (s : Schema) (row : Row) : Prop :=
  ∀ name c, s.cell? row name = some c → reading.column name = c

/-- A row of a proper snapshot has under the name of each key the value of its partition. -/
theorem Snapshot.Proper.carries {s : Snapshot} (h : s.Proper) {p : Partition} {stored : Schema} {r : Row}
    {reading : RowReading}
    (hreading : reading.Reads s.schema (Plain.row s.dataSchema s.keys p stored r)) :
    reading.Carries s.keys p := by
  intro key hkey
  refine hreading key.name _ (Schema.cell?_of_mem_zip (f := ⟨key.name, key.type.dataType, true⟩) h.names ?_)
  rw [h.schema]
  unfold Plain.row keyColumns
  -- The columns of the data come first on both sides, so a key's column is beside the key's value.
  rw [List.zip_append (by rw [List.length_map]), List.zip_map']
  exact List.mem_append_right _ (List.mem_map_of_mem hkey)

/-! ### Plans -/

/-- Whether a plan shows some columns of the rows of one snapshot, whatever happens while it is scanned, and
leaves out none of them on which some filters are true. -/
structure ScanPlan.Stays (p : ScanPlan) (columns : Schema) (filters : List Expr) : Prop where
  schema : p.schema = columns
  /-- Each batch has these columns, and its cells are of their types if those of the artifacts are. -/
  batches : ∀ loads out rest, p.start.Streams loads out rest → ∀ b ∈ out, b.schema = columns ∧
    ((∀ l ∈ loads, ∀ r ∈ l.content.rows, l.content.schema.admits r = true) →
      ∀ row ∈ b.rows, columns.admits row = true)
  /-- What is loaded are artifacts of the snapshot, and the rows are the first ones of them. -/
  rows : ∀ loads out rest, p.start.Streams loads out rest →
    (∀ l ∈ loads, ∃ entry ∈ p.snapshot.kept p.predicate,
      l.partition = entry.partition ∧ l.artifact ∈ entry.artifacts) ∧
    out.flatMap Batch.rows <+: loads.flatMap (Load.rows p.snapshot p.projection)
  /-- Without a limit all artifacts of the partitions that are kept have been loaded in the end, and all of
  their rows handed out. -/
  complete : p.limit = none → ∀ loads out rest, p.start.Streams loads out rest → rest.Ended →
    loads.map Load.source
      = (p.snapshot.kept p.predicate).flatMap (fun entry => entry.artifacts.map fun a => (entry.partition, a)) ∧
    out.flatMap Batch.rows = loads.flatMap (Load.rows p.snapshot p.projection)
  /-- A partition of the snapshot is kept if the filters are true on a row that it may have. -/
  kept : ∀ entry ∈ p.snapshot.partitions, ∀ (stored : Schema) (r : Row) (reading : RowReading),
    reading.Reads p.snapshot.schema
      (Plain.row p.snapshot.dataSchema p.snapshot.keys entry.partition stored r) →
    (∀ f ∈ filters, reading.truth f = some true) → entry ∈ p.snapshot.kept p.predicate

/-- A plan over a proper snapshot stays with the columns asked for, whatever keys its predicate was made
for. -/
theorem ScanPlan.stays {p : ScanPlan} {filters : List Expr} {isKey : String → Bool}
    (hsnapshot : p.snapshot.Proper) (hpredicate : p.predicate = Expr.predicateOf isKey filters)
    (hschema : p.snapshot.projected p.projection = .ok p.schema) : p.Stays p.schema filters := by
  obtain ⟨hhas, hcolumns⟩ := Snapshot.projected_eq_ok.mp hschema
  refine ⟨rfl, fun loads out rest h b hb => ⟨?_, fun hloads row hrow => ?_⟩,
    fun loads out rest h => ⟨fun l hl => ?_, h.rows_isPrefix rfl⟩,
    fun hlimit loads out rest h hended => h.rows_eq rfl hlimit hended,
    fun entry hentry stored r reading hreading hfilters => List.mem_filter.mpr ⟨hentry, ?_⟩⟩
  · exact Except.ok.inj ((h.schema_eq b hb).symm.trans hschema)
  · rw [hcolumns]
    exact h.admits rfl hsnapshot.schema hhas hloads row (List.mem_flatMap.mpr ⟨b, hb, hrow⟩)
  · obtain ⟨-, -, -, hartifacts⟩ := h.frame
    have hsource : l.source ∈ p.start.artifacts := by
      rw [← hartifacts]
      exact List.mem_append_left _ (List.mem_map_of_mem hl)
    obtain ⟨entry, hentry, ha⟩ := List.mem_flatMap.mp hsource
    obtain ⟨a, ha, heq⟩ := List.mem_map.mp ha
    obtain ⟨hpartition, hartifact⟩ := Prod.ext_iff.mp heq
    obtain rfl : a = l.artifact := hartifact
    exact ⟨entry, hentry, hpartition.symm, ha⟩
  · rw [hpredicate]
    exact keeps_predicateOf (hsnapshot.fits entry hentry) (hsnapshot.carries hreading) isKey hfilters

/-- A scan of such a plan that is drained at once hands out batches with these columns, and if it meets no
failure and no limit, all rows of the partitions that are kept. -/
theorem ScanPlan.Stays.drain {p : ScanPlan} {columns : Schema} {filters : List Expr}
    (h : p.Stays columns filters) (read : Path → Except Error Artifact.Content) (r : Reading) :
    (∀ b ∈ (p.start.drain read r).1.batches, b.schema = columns) ∧
    (p.limit = none → (p.start.drain read r).1.failure = none → ∃ loads : List Load,
      loads.map Load.source
        = (p.snapshot.kept p.predicate).flatMap
          (fun entry => entry.artifacts.map fun a => (entry.partition, a)) ∧
      (p.start.drain read r).1.rows = loads.flatMap (Load.rows p.snapshot p.projection)) := by
  have hstart : p.start.Streams [] [] p.start := .start
  obtain ⟨loads, last, hstreams, hended⟩ := hstart.exists_drain read r
  refine ⟨fun b hb => (h.batches _ _ _ hstreams b hb).1, fun hlimit hnone => ⟨loads, ?_⟩⟩
  exact h.complete hlimit _ _ _ hstreams (hended hnone)

namespace Session

/-- A query that was planned when a table was in one session and is scanned in a later one, once the table was
refreshed if that was due, has a plan whenever the columns asked for were there. The plan keeps these columns,
all of its rows are of one snapshot, and none on which the filters are true is left out. -/
theorem plan_of_later {x y z : Session} (hx : x.Reached) (hy : x.Later y) (hz : y.freshened.Later z)
    (filters : List Expr) {projection : Option (List Nat)}
    (hprojection : x.table.current.schema.Has projection) (limit : Option Nat) :
    ∃ p, z.table.plan x.table.current filters projection limit = .ok p ∧
      p.projection = projection ∧ p.limit = limit ∧
      (p.snapshot = z.table.current ∨ p.snapshot = x.table.current) ∧
      p.Stays (x.table.current.schema.columnsAt projection) filters := by
  have hlater := ((hx.later hy).later y.later_freshened).later hz
  have hsnapshot : z.table.snapshotFor x.table.current = z.table.current ∨
      z.table.snapshotFor x.table.current = x.table.current := by
    unfold LiveTable.snapshotFor
    split
    · exact .inl rfl
    · exact .inr rfl
  have hproper : (z.table.snapshotFor x.table.current).Proper := by
    obtain hcurrent | hkept := hsnapshot
    · rw [hcurrent]
      exact hlater.proper
    · rw [hkept]
      exact hx.proper
  have hschema : (z.table.snapshotFor x.table.current).projected projection
      = .ok (x.table.current.schema.columnsAt projection) := by
    rw [Snapshot.projected_eq_ok, LiveTable.schema_snapshotFor]
    exact ⟨hprojection, rfl⟩
  let p : ScanPlan :=
    { table := z.table.name
      snapshot := z.table.snapshotFor x.table.current
      predicate := Expr.predicateOf x.table.current.isKey filters
      projection
      limit
      schema := x.table.current.schema.columnsAt projection }
  refine ⟨p, ?_, rfl, rfl, hsnapshot, ScanPlan.stays hproper rfl hschema⟩
  exact Outcome.bind_eq_ok.mpr ⟨_, hschema, rfl⟩

/-! ### A key that becomes a column -/

/-- Rows of `d`, a partition for each value of `k`. -/
def keyedFiles : Files where
  nodes := ⟨[(["d"], .directory), (["d", ".conversions.json"], .directory), (["d", "k=1"], .directory),
    (["d", "k=1", "x.parquet"],
      .file (Artifact.Content.encode .parquet ⟨[⟨"a", .int64, true⟩], [[[.int 5]]]⟩) 1),
    (["d", "k=2"], .directory),
    (["d", "k=2", "x.parquet"],
      .file (Artifact.Content.encode .parquet ⟨[⟨"a", .int64, true⟩], [[[.int 6]]]⟩) 1)]⟩
  home := []
  clock := 2

/-- The same rows in one file, with a column `k`. -/
def columnedFiles : Files where
  nodes := ⟨[(["d"], .directory), (["d", ".conversions.json"], .directory),
    (["d", "x.parquet"],
      .file (Artifact.Content.encode .parquet
        ⟨[⟨"a", .int64, true⟩, ⟨"k", .int64, true⟩], [[[.int 5, .int 1], [.int 6, .int 2]]]⟩) 3)]⟩
  home := []
  clock := 4

/-- A table of `d` that was not built yet. -/
def unbuilt (w : Workspace) : Session :=
  ⟨.ofOrigin "t" (.directory ⟨"d"⟩) { artifactDir := some ⟨"a"⟩ }, w, keyedFiles⟩

/-- The table once it was built from one of the trees, and before it is refreshed from the other. -/
def rekeyed? : Option (Session × Session) :=
  match Workspace.ofDirectory keyedFiles ⟨"d"⟩ { artifactDir := some ⟨"a"⟩ } with
  | .error _ => none
  | .ok w =>
    let x := (unbuilt w).freshened
    some (x, ⟨x.table.markStale, x.workspace, columnedFiles⟩)

/-- Files may be replaced, and the table marked then. -/
theorem later_marked (x : Session) (fs : Files) : x.Later ⟨x.table.markStale, x.workspace, fs⟩ := by
  obtain ⟨t, w, before⟩ := x
  exact .tail (.single .around) (.ask rfl)

theorem of_rekeyed? {x y : Session} (h : rekeyed? = some (x, y)) : x.Reached ∧ x.Later y := by
  unfold rekeyed? at h
  split at h
  · cases h
  · next w _ =>
    cases h
    exact ⟨⟨unbuilt w, rfl, later_freshened (unbuilt w)⟩, later_marked _ columnedFiles⟩

/-- A query for one value of `k` is planned while `k` is a key and scanned when it is a column. It reads the
new snapshot, with the planned columns. -/
theorem plan_of_rekeyed :
    ∃ x y : Session, x.Reached ∧ x.Later y ∧ x.table.current.keys = [⟨"k", .integer⟩] ∧
      y.freshened.table.current.keys = [] ∧
      ∃ p, y.freshened.table.plan x.table.current
          [.compare .eq (.column "k") (.constant (.integer 2))] (some [1, 0]) none = .ok p ∧
        p.snapshot.keys = [] ∧
        p.Stays [⟨"k", .int64, true⟩, ⟨"a", .int64, true⟩]
          [.compare .eq (.column "k") (.constant (.integer 2))] := by
  have hrekeyed : rekeyed?.map (fun s => decide (s.1.table.current.keys = [⟨"k", .integer⟩] ∧
      s.1.table.current.schema = [⟨"a", .int64, true⟩, ⟨"k", .int64, true⟩] ∧
      s.2.freshened.table.current.schema = s.1.table.current.schema ∧
      s.2.freshened.table.current.keys = [])) = some true := by decide +kernel
  obtain ⟨⟨x, y⟩, hrekeyed, hfacts⟩ := Option.map_eq_some_iff.mp hrekeyed
  obtain ⟨hkeys, hschema, hcolumns, hnone⟩ := of_decide_eq_true hfacts
  obtain ⟨hx, hy⟩ := of_rekeyed? hrekeyed
  have hhas : x.table.current.schema.Has (some [1, 0]) := by
    rw [hschema]
    intro positions hpositions
    cases hpositions
    decide
  obtain ⟨p, hp, -, -, -, hstays⟩ :=
    plan_of_later hx hy .refl [.compare .eq (.column "k") (.constant (.integer 2))] hhas none
  refine ⟨x, y, hx, hy, hkeys, hnone, p, hp, ?_, ?_⟩
  · obtain ⟨schema, -, hplan⟩ := Outcome.bind_eq_ok.mp hp
    cases hplan
    show (y.freshened.table.snapshotFor x.table.current).keys = []
    unfold LiveTable.snapshotFor
    rw [if_pos hcolumns]
    exact hnone
  · rw [hschema] at hstays
    exact hstays

end Session

end SourceTables

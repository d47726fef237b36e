import SourceTables.Proofs.Align
import SourceTables.Proofs.LiveTable.Session

/-!
# `SourceTables.Proofs.LiveTable.Proper`: snapshots that tables can have

A snapshot is proper when its columns have different names, those of the data before those of the keys, and
its partitions have fitting values for all keys. The parts of a snapshot could be anything; those that a table
builds come from a layout, so that a table has proper snapshots only. Nothing is assumed of the files or of
the workspace: both may be replaced at any time, so this holds whatever happens beside the table, and whether
or not its passes succeed.

The theorems:

* `Snapshot.proper_build`: a snapshot that is built for different keys and different columns is proper.
* `LiveTable.proper_of_candidate`: so is a candidate, whatever its pass has found.
* `Session.Reached.proper`: so is the snapshot of a table that was once empty.
-/

set_option autoImplicit false

namespace SourceTables

namespace Snapshot

/-- Whether the columns of a snapshot have different names and its partitions have values for its keys. -/
structure Proper (s : Snapshot) : Prop where
  schema : s.schema = s.dataSchema ++ keyColumns s.keys
  names : (s.schema.map Field.name).Nodup
  fits : ∀ entry ∈ s.partitions, entry.partition.Fits s.keys

theorem proper_empty : empty.Proper := ⟨rfl, List.nodup_nil, nofun⟩

/-- The columns of keys have their names. -/
theorem names_keyColumns (keys : List PartitionKey) :
    (keyColumns keys).map Field.name = keys.map PartitionKey.name := by
  unfold keyColumns
  rw [List.map_map]
  rfl

/-- A snapshot that is built for different keys and different columns is proper: a column that is named like
a key is left out. -/
theorem proper_build {keys : List PartitionKey} {partitions : List PartitionEntry} {columns : Schema}
    (hkeys : (keys.map PartitionKey.name).Nodup) (hcolumns : (columns.map Field.name).Nodup)
    (hfits : ∀ entry ∈ partitions, entry.partition.Fits keys) (conversions : LedgerMap) (now : Nat) :
    (build keys partitions conversions columns now).Proper := by
  refine ⟨rfl, ?_, hfits⟩
  show ((dataColumns keys columns ++ keyColumns keys).map Field.name).Nodup
  rw [List.map_append, names_keyColumns]
  refine List.nodup_append.mpr ⟨hcolumns.sublist (List.filter_sublist.map _), hkeys, ?_⟩
  rintro _ hdata _ hkey rfl
  obtain ⟨f, hf, hname⟩ := List.mem_map.mp hdata
  obtain ⟨k, hk, hkname⟩ := List.mem_map.mp hkey
  exact (mem_dataColumns.mp hf).2 k hk (hkname.trans hname.symm)

/-- The names of the columns of the data are different, too. -/
theorem Proper.names_dataSchema {s : Snapshot} (h : s.Proper) : (s.dataSchema.map Field.name).Nodup := by
  have hnames := h.names
  rw [h.schema, List.map_append] at hnames
  exact (List.nodup_append.mp hnames).1

end Snapshot

/-! ### Candidates -/

/-- The layout of an origin has different keys, for each of which its partitions have a value. -/
theorem Origin.fits_layout {o : Origin} {d : Detection} {fs : Files} {layout : Layout}
    (h : o.layout d fs = .ok layout) :
    (layout.keys.map PartitionKey.name).Nodup ∧ ∀ p ∈ layout.partitions, p.Fits layout.keys := by
  cases o with
  | file path table =>
    cases h
    refine ⟨List.nodup_nil, fun p hp => ?_⟩
    rw [List.mem_singleton.mp hp]
    exact .nil
  | directory root =>
    change d.detect fs root = .ok layout at h
    unfold Detection.detect at h
    split at h
    · next entries _ =>
      have hlayout := Detection.detectListing_eq_ok.mp h
      exact ⟨Detection.nodup_keys_of_layoutOf hlayout, Detection.fits_of_layoutOf hlayout⟩
    · cases h

namespace LiveTable

variable {t : LiveTable} {w : Workspace} {fs : Files} {calledOff : Checkpoint → Bool}

/-- What is selected for a partition is selected for no other. -/
theorem partition_of_selectPartition {m : LedgerMap} {p : Partition} {entry : PartitionEntry}
    (h : t.selectPartition m p = .ok entry) : entry.partition = p := by
  obtain ⟨artifacts, -, h⟩ := Outcome.bind_eq_ok.mp h
  cases h
  rfl

/-- The columns of a candidate have different names, if those of the current snapshot have. -/
theorem nodup_columns {keys : List PartitionKey} {partitions : List PartitionEntry} {columns : Schema}
    (hcurrent : t.current.Proper) (h : t.columns fs keys partitions = .ok columns) :
    (columns.map Field.name).Nodup := by
  unfold LiveTable.columns at h
  split at h
  · cases h
    exact hcurrent.names_dataSchema
  · obtain ⟨schemas, -, rfl⟩ := Outcome.map_eq_ok.mp h
    exact (Schema.merged_merge schemas).nodup

/-- A candidate is proper, whatever its pass has found. -/
theorem proper_of_candidate {s : Snapshot} (hcurrent : t.current.Proper)
    (h : (t.candidate w fs calledOff).1 = .ok s) : s.Proper := by
  unfold candidate at h
  split at h
  · cases h
  · next layout hlayout =>
    obtain ⟨hkeys, hfits⟩ := Origin.fits_layout hlayout
    split at h
    · cases h
    · obtain ⟨-, partitions, columns, hpartitions, hcolumns, rfl⟩ := of_assemble h
      refine Snapshot.proper_build hkeys (nodup_columns hcurrent hcolumns) (fun entry hentry => ?_) _ _
      obtain ⟨p, hp, hselect⟩ :=
        Outcome.exists_of_forall₂ (Outcome.mapM_eq_ok.mp hpartitions).flip hentry
      rw [partition_of_selectPartition hselect]
      exact hfits p hp

end LiveTable

/-! ### Tables -/

namespace Session

/-- What can happen to a table and around it. -/
inductive Event : Session → Session → Prop
  /-- The files change, or the workspace does, whoever works with them. -/
  | around {t : LiveTable} {w w' : Workspace} {fs fs' : Files} : Event ⟨t, w, fs⟩ ⟨t, w', fs'⟩
  /-- The table is asked for a refresh, or for the failure of one. -/
  | ask {t t' : LiveTable} {w : Workspace} {fs : Files} (hcurrent : t'.current = t.current) :
    Event ⟨t, w, fs⟩ ⟨t', w, fs⟩
  /-- There is a pass, which may fail or be called off. -/
  | refresh {x x' : Session} {calledOff : Checkpoint → Bool} {outcome : Except Error Bool}
    (hrun : x.table.refresh x.workspace x.files calledOff
      = (outcome, x'.table, x'.workspace, x'.files)) : Event x x'

/-- Whether a session follows on another one, after any number of events. -/
def Later : Session → Session → Prop := Relation.ReflTransGen Event

/-- Whether a session follows on one in which its table was not built yet. -/
def Reached (x : Session) : Prop := ∃ start : Session, start.table.current = .empty ∧ start.Later x

variable {x y : Session}

/-- An event keeps the snapshot of a table proper. -/
theorem Event.proper (h : x.Event y) (hx : x.table.current.Proper) : y.table.current.Proper := by
  cases h with
  | around => exact hx
  | ask hcurrent =>
    rw [hcurrent]
    exact hx
  | refresh hrun =>
    obtain ⟨-, ⟨e, -, -, hcurrent, -⟩ | ⟨s, -, hbuilt, -, hcurrent | ⟨hcurrent, -⟩, -⟩⟩ :=
      LiveTable.finishPass_cases hrun
    · rw [hcurrent]
      exact hx
    · -- The pass works with the table once its flag is cleared, which has the same snapshot.
      rw [hcurrent]
      exact LiveTable.proper_of_candidate (t := { x.table with stale := false }) hx hbuilt
    · rw [hcurrent]
      exact hx

/-- So do any number of events. -/
theorem Later.proper (h : x.Later y) (hx : x.table.current.Proper) : y.table.current.Proper := by
  induction h with
  | refl => exact hx
  | tail _ hevent ih => exact hevent.proper ih

/-- The snapshot of a table is proper. -/
theorem Reached.proper (h : x.Reached) : x.table.current.Proper := by
  obtain ⟨start, hempty, hlater⟩ := h
  refine hlater.proper ?_
  rw [hempty]
  exact Snapshot.proper_empty

theorem Reached.later (h : x.Reached) (hlater : x.Later y) : y.Reached := by
  obtain ⟨start, hempty, hbefore⟩ := h
  exact ⟨start, hempty, hbefore.trans hlater⟩

/-- A session once its table was refreshed, if that was due. -/
def freshened (x : Session) : Session :=
  let after := x.table.ensureFresh x.workspace x.files
  ⟨after.1, after.2.1, after.2.2⟩

/-- Refreshing a table that is due is one of the events. -/
theorem later_freshened (x : Session) : x.Later x.freshened := by
  unfold freshened LiveTable.ensureFresh
  split
  · cases hrun : x.table.refresh x.workspace x.files LiveTable.uninterrupted with | mk outcome after =>
    obtain ⟨t, w, fs⟩ := after
    have hpass : x.Event ⟨t, w, fs⟩ := .refresh hrun
    cases outcome with
    | ok swapped => exact .single hpass
    | error e => exact .tail (.single hpass) (.ask rfl)
  · exact .refl

end Session

end SourceTables

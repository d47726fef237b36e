import SourceTables.Json.Table
import SourceTables.Proofs.Outcome

/-!
# `SourceTables.Proofs.Json.Shape`: the columns of objects are told apart

The members of objects are gathered by their keys: a key that is there already has its shape changed, and
only a new one comes to the others. An object that has a key twice is no exception. So no two columns that
are found for rows have the same name.

The theorems:

* `keys_updateMember?`: what one more member does to the keys.
* `nodup_objectShape?`: the members of objects have different keys.
* `Json.nodup_itemsTable`, `Json.nodup_recordsTable`, `Json.nodup_tables`: so have the columns of tables.
-/

set_option autoImplicit false

namespace SourceTables.Json

namespace Shape

/-- One more member leaves the keys as they are or adds its own. -/
theorem keys_updateMember? {key : String} {change : Shape → Option Shape} :
    ∀ {members members' : List (String × Shape)}, updateMember? key change members = some members' →
      members'.map Prod.fst = if key ∈ members.map Prod.fst then members.map Prod.fst
        else members.map Prod.fst ++ [key] := by
  intro members
  induction members with
  | nil =>
    intro members' h
    obtain ⟨shape, -, rfl⟩ := Option.map_eq_some_iff.mp h
    rfl
  | cons m rest ih =>
    intro members' h
    rw [updateMember?] at h
    by_cases hkey : m.1 = key
    · rw [if_pos hkey] at h
      obtain ⟨shape, -, rfl⟩ := Option.map_eq_some_iff.mp h
      simp [hkey]
    · rw [if_neg hkey] at h
      obtain ⟨rest', hrest, rfl⟩ := Option.map_eq_some_iff.mp h
      rw [List.map_cons, ih hrest, List.map_cons]
      simp only [List.mem_cons, Ne.symm hkey, false_or]
      split <;> rfl

theorem nodup_updateMember? {key : String} {change : Shape → Option Shape}
    {members members' : List (String × Shape)} (h : updateMember? key change members = some members')
    (hnodup : (members.map Prod.fst).Nodup) : (members'.map Prod.fst).Nodup := by
  rw [keys_updateMember? h]
  split
  · exact hnodup
  · next hnew =>
    apply List.nodup_append.mpr
    refine ⟨hnodup, List.pairwise_singleton _ _, ?_⟩
    intro k hk k' hk' heq
    rw [heq, List.mem_singleton.mp hk'] at hk
    exact hnew hk

/-- The members of one more object are gathered by their keys. -/
theorem nodup_joinMembers? (members : List (String × Value)) :
    ∀ {fields fields' : List (String × Shape)}, joinMembers? fields members = some fields' →
      (fields.map Prod.fst).Nodup → (fields'.map Prod.fst).Nodup := by
  induction members with
  | nil =>
    intro fields fields' h hnodup
    cases h
    exact hnodup
  | cons m rest ih =>
    intro fields fields' h hnodup
    obtain ⟨next, hnext, hrest⟩ := Option.bind_eq_some_iff.mp h
    obtain ⟨key, v⟩ := m
    exact ih hrest (nodup_updateMember? hnext hnodup)

/-- The shape of objects is an object whose members have different keys. -/
theorem nodup_objectShape? (rows : List Value) :
    ∀ {fields : List (String × Shape)} {shape : Shape}, objectShape? fields rows = some shape →
      (fields.map Prod.fst).Nodup → ∃ fields', shape = .object fields' ∧ (fields'.map Prod.fst).Nodup := by
  induction rows with
  | nil =>
    intro fields shape h hnodup
    cases h
    exact ⟨fields, rfl, hnodup⟩
  | cons row rest ih =>
    intro fields shape h hnodup
    cases row with
    | object members =>
      obtain ⟨next, hnext, hrest⟩ := Option.bind_eq_some_iff.mp h
      exact ih hrest (nodup_joinMembers? members hnext hnodup)
    | null | bool _ | number _ | text _ | array _ => cases h

theorem map_name_fieldTypes (members : List (String × Shape)) :
    (fieldTypes members).map Field.name = members.map Prod.fst := by
  induction members with
  | nil => rfl
  | cons m rest ih =>
    obtain ⟨name, shape⟩ := m
    rw [fieldTypes, List.map_cons, List.map_cons, ih]
    rfl

/-- The columns of rows have different names. -/
theorem nodup_schema? {rows : List Value} {schema : Schema} (h : schema? rows = some schema) :
    (schema.map Field.name).Nodup := by
  obtain ⟨shape, hshape, rfl⟩ := Option.map_eq_some_iff.mp h
  obtain ⟨fields, rfl, hnodup⟩ := nodup_objectShape? rows hshape List.nodup_nil
  show ((fieldTypes fields).map Field.name).Nodup
  rw [map_name_fieldTypes]
  exact hnodup

end Shape

/-! ### Tables -/

variable {t : Table} {options : ConvertOptions}

theorem schema_of_tableOf {name : Option String} {schema : Schema} {batchSize : Nat} {rows : List Value}
    (h : tableOf name schema batchSize rows = .ok t) : t.schema = schema := by
  unfold tableOf at h
  split at h
  · cases h
    rfl
  · cases h

theorem nodup_itemsTable {name : Option String} {items : List Value}
    (h : itemsTable name options items = .ok t) : (t.schema.map Field.name).Nodup := by
  unfold itemsTable at h
  dsimp only at h
  split at h
  · next schema hschema =>
    rw [schema_of_tableOf h]
    exact Shape.nodup_schema? hschema
  · cases h

theorem nodup_recordsTable {bytes : List UInt8} (h : recordsTable options bytes = .ok t) :
    (t.schema.map Field.name).Nodup := by
  unfold recordsTable at h
  split at h
  · cases h
  · next schema hschema =>
    split at h
    · cases h
    · rw [schema_of_tableOf h]
      obtain ⟨records, -, hcolumns⟩ := Option.bind_eq_some_iff.mp hschema
      exact Shape.nodup_schema? hcolumns

/-- The tables of a document have columns with different names. -/
theorem nodup_tables {path : Path} {bytes : List UInt8} {tables : List Table}
    (h : Json.tables path options bytes = .ok tables) :
    ∀ t ∈ tables, (t.schema.map Field.name).Nodup := by
  have hone {items : List Value} {tables : List Table}
      (h : (do return [← itemsTable none options items]) = Except.ok tables) :
      ∀ t ∈ tables, (t.schema.map Field.name).Nodup := by
    obtain ⟨table, htable, htables⟩ := Outcome.bind_eq_ok.mp h
    cases htables
    intro t ht
    rw [List.mem_singleton.mp ht]
    exact nodup_itemsTable htable
  unfold Json.tables at h
  split at h
  · cases h
  · next document _ =>
    unfold documentTables at h
    split at h
    · cases h
    · exact hone h
    · next members =>
      -- Without arrays that hold anything the object is a row, and else each of them is a table.
      split at h
      · exact hone h
      · intro t ht
        obtain ⟨array, -, harray⟩ := Outcome.exists_of_forall₂ (Outcome.mapM_eq_ok.mp h).flip ht
        exact nodup_itemsTable harray
    · cases h

end SourceTables.Json

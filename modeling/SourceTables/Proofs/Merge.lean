import Mathlib.Data.Finset.Lattice.Fold
import SourceTables.Merge
import SourceTables.Snapshot

/-!
# `SourceTables.Proofs.Merge`: the columns that tables have together

Types that give way to each other form a semilattice with `null` at the bottom. The type of a merged
column is therefore the same in whatever order the tables come, and however often each of them does.

The theorems:

* `DataType.joinAll_congr`: the order and the number of types do not matter.
* `Schema.merged_merge`: a merged schema has each name of its tables once, under the type that all
  columns of that name give way to.
-/

set_option autoImplicit false

namespace SourceTables

namespace DataType

/-! ### Types that give way to each other -/

theorem join_self (a : DataType) : a.join a = a := by
  unfold join
  exact if_pos rfl

theorem null_join (a : DataType) : join .null a = a := by
  unfold join
  split
  · next h => exact h
  · exact if_pos rfl

/-- Which of two types comes first does not matter. -/
theorem join_comm (a b : DataType) : a.join b = b.join a := by
  unfold join
  rw [Bool.and_comm]
  split_ifs <;> simp_all

theorem join_null (a : DataType) : a.join .null = a := by
  rw [join_comm, null_join]

/-- Two types with values are the same, or both give way to doubles or texts. -/
theorem join_of_ne {a b : DataType} (ha : a ≠ .null) (hb : b ≠ .null) :
    a.join b = if a = b then a else if a.isNumeric && b.isNumeric then .float64 else .utf8 := by
  unfold join
  rw [if_neg ha, if_neg hb]

/-- Doubles and texts are where types with values end. -/
theorem join_assoc (a b c : DataType) : (a.join b).join c = a.join (b.join c) := by
  obtain rfl | ha := eq_or_ne a .null
  · rw [null_join, null_join]
  obtain rfl | hb := eq_or_ne b .null
  · rw [join_null, null_join]
  obtain rfl | hc := eq_or_ne c .null
  · rw [join_null, join_null]
  have hvalues {a b : DataType} (ha : a ≠ .null) (hb : b ≠ .null) : a.join b ≠ .null := by
    rw [join_of_ne ha hb]
    split_ifs
    · exact ha
    · exact nofun
    · exact nofun
  have hfloat : float64.isNumeric = true := rfl
  have htext : utf8.isNumeric = false := rfl
  rw [join_of_ne (hvalues ha hb) hc, join_of_ne ha (hvalues hb hc), join_of_ne ha hb, join_of_ne hb hc]
  -- From here on the types are nothing but numeric or not.
  clear hvalues
  generalize float64 = f at *
  generalize utf8 = t at *
  cases hna : a.isNumeric <;> cases hnb : b.isNumeric <;> cases hnc : c.isNumeric <;> grind

instance : Max DataType := ⟨join⟩

instance : SemilatticeSup DataType := SemilatticeSup.mk' join_comm join_assoc join_self

instance : OrderBot DataType where
  bot := .null
  bot_le a := sup_eq_right.mp (null_join a)

/-- The type that all of some types give way to. -/
def joinAll (types : List DataType) : DataType := types.foldr join .null

/-- The order and the number of types do not matter. -/
theorem joinAll_congr {types types' : List DataType} (h : ∀ t, t ∈ types ↔ t ∈ types') :
    joinAll types = joinAll types' := by
  have hsup (types : List DataType) : joinAll types = types.toFinset.sup id :=
    List.foldr_sup_eq_sup_toFinset types
  rw [hsup, hsup]
  congr 1
  ext t
  rw [List.mem_toFinset, List.mem_toFinset, h]

theorem joinAll_concat (types : List DataType) (t : DataType) :
    joinAll (types ++ [t]) = (joinAll types).join t := by
  rw [join_comm]
  have hsame : ∀ u, u ∈ types ++ [t] ↔ u ∈ t :: types := by
    intro u
    simp [or_comm]
  exact joinAll_congr hsame

end DataType

namespace Schema

/-! ### Columns that are merged -/

/-- The types of all columns with a name. -/
def typesOf (columns : Schema) (name : String) : List DataType :=
  (columns.filter fun f => f.name == name).map Field.type

/-- Whether some columns have each name of others once, under the type that these give way to. -/
structure Merged (columns all : Schema) : Prop where
  nodup : (columns.map Field.name).Nodup
  mem_iff : ∀ f, f ∈ columns ↔ f.nullable = true ∧ f.name ∈ all.map Field.name ∧
    f.type = DataType.joinAll (all.typesOf f.name)

/-- One more column leaves the names as they are or adds its own. -/
theorem map_name_mergeField (columns : Schema) (f : Field DataType) :
    (columns.mergeField f).map Field.name
      = if f.name ∈ columns.map Field.name then columns.map Field.name
        else columns.map Field.name ++ [f.name] := by
  induction columns with
  | nil => rfl
  | cons g rest ih =>
    rw [mergeField]
    by_cases hname : g.name = f.name
    · simp [hname]
    · rw [if_neg hname, List.map_cons, ih, List.map_cons]
      simp only [List.mem_cons, Ne.symm hname, false_or]
      split_ifs <;> rfl

/-- One more column is joined with the one of its name. -/
theorem mem_mergeField {columns : Schema} (hnodup : (columns.map Field.name).Nodup)
    (f h : Field DataType) :
    h ∈ columns.mergeField f ↔
      (h ∈ columns ∧ h.name ≠ f.name) ∨
      (∃ g ∈ columns, g.name = f.name ∧ h = { g with type := g.type.join f.type }) ∨
      (f.name ∉ columns.map Field.name ∧ h = { f with nullable := true }) := by
  induction columns with
  | nil => simp [mergeField]
  | cons g rest ih =>
    obtain ⟨hnew, hrest⟩ := List.nodup_cons.mp hnodup
    rw [mergeField]
    by_cases hname : g.name = f.name
    · rw [if_pos hname]
      have hne : ∀ h ∈ rest, h.name ≠ f.name := fun h hh heq =>
        hnew (hname ▸ heq ▸ List.mem_map_of_mem hh)
      constructor
      · intro hmem
        obtain rfl | hmem := List.mem_cons.mp hmem
        · exact .inr (.inl ⟨g, .head _, hname, rfl⟩)
        · exact .inl ⟨.tail _ hmem, hne h hmem⟩
      · rintro (⟨hmem, hne'⟩ | ⟨g', hg', hname', rfl⟩ | ⟨habsent, -⟩)
        · obtain rfl | hmem := List.mem_cons.mp hmem
          · exact absurd hname hne'
          · exact .tail _ hmem
        · obtain rfl | hg' := List.mem_cons.mp hg'
          · exact .head _
          · exact absurd hname' (hne g' hg')
        · exact absurd (hname ▸ List.mem_map_of_mem (List.mem_cons_self)) habsent
    · rw [if_neg hname, List.mem_cons, ih hrest]
      simp only [List.mem_cons, List.map_cons, exists_eq_or_imp, hname, false_and, false_or,
        Ne.symm hname]
      constructor
      · rintro (rfl | hrest)
        · exact .inl ⟨.inl rfl, hname⟩
        · exact hrest.imp_left fun ⟨hmem, hne⟩ => ⟨.inr hmem, hne⟩
      · rintro (⟨rfl | hmem, hne⟩ | hrest)
        · exact .inl rfl
        · exact .inr (.inl ⟨hmem, hne⟩)
        · exact .inr (.inr hrest)

/-- Names that no column has have no types. -/
theorem typesOf_eq_nil {all : Schema} {name : String} (h : name ∉ all.map Field.name) :
    all.typesOf name = [] := by
  rw [typesOf, List.map_eq_nil_iff, List.filter_eq_nil_iff]
  intro g hg hname
  exact h (beq_iff_eq.mp hname ▸ List.mem_map_of_mem hg)

theorem typesOf_concat (all : Schema) (f : Field DataType) (name : String) :
    (all ++ [f]).typesOf name
      = if f.name = name then all.typesOf name ++ [f.type] else all.typesOf name := by
  unfold typesOf
  rw [List.filter_append, List.map_append]
  by_cases hname : f.name = name <;> simp [hname]

/-- Columns with the same name, type and nullability are the same. -/
theorem field_ext {f g : Field DataType} (hname : f.name = g.name) (htype : f.type = g.type)
    (hnullable : f.nullable = g.nullable) : f = g := by
  obtain ⟨name, type, nullable⟩ := f
  obtain ⟨name', type', nullable'⟩ := g
  change name = name' at hname
  change type = type' at htype
  change nullable = nullable' at hnullable
  rw [hname, htype, hnullable]

theorem Merged.mem_names {columns all : Schema} (h : Merged columns all) (name : String) :
    name ∈ columns.map Field.name ↔ name ∈ all.map Field.name := by
  constructor
  · intro hmem
    obtain ⟨g, hg, rfl⟩ := List.mem_map.mp hmem
    exact ((h.mem_iff g).mp hg).2.1
  · intro hmem
    exact List.mem_map.mpr ⟨⟨name, DataType.joinAll (all.typesOf name), true⟩,
      (h.mem_iff _).mpr ⟨rfl, hmem, rfl⟩, rfl⟩

/-- One more column keeps columns merged. -/
theorem Merged.mergeField {columns all : Schema} (h : Merged columns all) (f : Field DataType) :
    Merged (columns.mergeField f) (all ++ [f]) := by
  constructor
  · rw [map_name_mergeField]
    split_ifs with hmem
    · exact h.nodup
    · exact List.nodup_append.mpr ⟨h.nodup, List.nodup_singleton _, fun a ha b hb =>
        fun hab => hmem (List.mem_singleton.mp hb ▸ hab ▸ ha)⟩
  · intro g
    rw [mem_mergeField h.nodup, typesOf_concat, List.map_append, List.mem_append]
    by_cases hname : g.name = f.name
    · rw [if_pos hname.symm, DataType.joinAll_concat, hname]
      constructor
      · rintro (⟨-, hne⟩ | ⟨g', hg', hname', rfl⟩ | ⟨habsent, rfl⟩)
        · exact absurd rfl hne
        · obtain ⟨hnull, hmem, htype⟩ := (h.mem_iff g').mp hg'
          exact ⟨hnull, .inr (.head _), hname' ▸ congrArg (DataType.join · f.type) htype⟩
        · rw [typesOf_eq_nil fun hmem => habsent ((h.mem_names _).mpr hmem)]
          exact ⟨rfl, .inr (.head _), (DataType.null_join _).symm⟩
      · rintro ⟨hnull, -, htype⟩
        refine .inr ?_
        by_cases hmem : f.name ∈ columns.map Field.name
        · exact .inl ⟨⟨f.name, DataType.joinAll (all.typesOf f.name), true⟩,
            (h.mem_iff _).mpr ⟨rfl, (h.mem_names _).mp hmem, rfl⟩, rfl, field_ext hname htype hnull⟩
        · rw [typesOf_eq_nil fun hmem' => hmem ((h.mem_names _).mpr hmem')] at htype
          exact .inr ⟨hmem, field_ext hname (htype.trans (DataType.null_join _)) hnull⟩
    · rw [if_neg (Ne.symm hname)]
      constructor
      · rintro (⟨hmem, -⟩ | ⟨g', -, hname', rfl⟩ | ⟨-, rfl⟩)
        · obtain ⟨hnull, hmem, htype⟩ := (h.mem_iff g).mp hmem
          exact ⟨hnull, .inl hmem, htype⟩
        · exact absurd hname' hname
        · exact absurd rfl hname
      · rintro ⟨hnull, hmem | hmem, htype⟩
        · exact .inl ⟨(h.mem_iff g).mpr ⟨hnull, hmem, htype⟩, hname⟩
        · exact absurd (List.mem_singleton.mp hmem) hname

/-- A merged schema has each name of its tables once, under the type that its columns give way to. -/
theorem merged_merge (schemas : List Schema) : Merged (merge schemas) schemas.flatten := by
  have fields (columns all fs : Schema) (h : Merged columns all) :
      Merged (fs.foldl Schema.mergeField columns) (all ++ fs) := by
    induction fs generalizing columns all with
    | nil => simpa using h
    | cons f fs ih =>
      rw [List.foldl_cons, List.append_cons all f fs]
      exact ih _ _ (h.mergeField f)
  have tables (columns all : Schema) (schemas : List Schema) (h : Merged columns all) :
      Merged (schemas.foldl mergeWith columns) (all ++ schemas.flatten) := by
    induction schemas generalizing columns all with
    | nil => simpa using h
    | cons s schemas ih =>
      rw [List.foldl_cons, List.flatten_cons, ← List.append_assoc]
      exact ih _ _ (fields _ _ s h)
  exact tables [] [] schemas ⟨List.nodup_nil, fun f => by simp⟩

/-- Which columns are merged depends on what they are alone. -/
theorem Merged.congr {columns all all' : Schema} (h : Merged columns all) (hall : ∀ f, f ∈ all ↔ f ∈ all') :
    Merged columns all' := by
  refine ⟨h.nodup, fun f => ?_⟩
  have hnames : f.name ∈ all.map Field.name ↔ f.name ∈ all'.map Field.name := by
    simp only [List.mem_map, hall]
  have htypes : DataType.joinAll (all.typesOf f.name) = DataType.joinAll (all'.typesOf f.name) :=
    DataType.joinAll_congr fun t => by simp only [typesOf, List.mem_map, List.mem_filter, hall]
  rw [h.mem_iff, hnames, htypes]

end Schema

end SourceTables

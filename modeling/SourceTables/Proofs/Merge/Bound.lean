import SourceTables.Proofs.Cast

/-!
# `SourceTables.Proofs.Merge.Bound`: merged columns as least upper bounds

The semilattice of types is described by an order that can be read off: nothing but nulls goes under every
type, numbers go under doubles, and everything goes under text. A merged schema is a closed form of its
tables, in which the order of the names is that of their first sight and each type is the least one that the
types of all columns of the name go under.

    merge schemas = firstSeen names, each with joinAll (typesOf name), nullable

So only the order of the names depends on the order of the tables, and tables may be merged in groups.

The theorems:

* `DataType.le_iff_givesWayTo`, `DataType.isBound_joinAll`: the order, and the bound of some types in it.
* `Schema.merge_eq`: the closed form.
* `Schema.Merged.column?_eq`: what is found under a name.
* `Schema.merge_splice`: tables may be merged before they are merged with others.
* `Schema.merge_bound`: a merged schema is the join of its tables.
-/

set_option autoImplicit false

namespace SourceTables

/-! ### Names in the order of their first sight -/

section FirstSeen

variable {α : Type} [BEq α] [LawfulBEq α]

/-- Taking out elements before or after repetitions are erased is the same. -/
theorem eraseDups_filter (p : α → Bool) : ∀ xs : List α, (xs.filter p).eraseDups = xs.eraseDups.filter p
  | [] => rfl
  | x :: xs => by
    -- What is left without the repetitions of the first element is shorter, but no tail of the list.
    have ih := eraseDups_filter p (xs.filter fun y => !y == x)
    rw [List.eraseDups_cons]
    by_cases hx : p x = true
    · rw [List.filter_cons_of_pos hx, List.filter_cons_of_pos hx, List.eraseDups_cons, ← ih,
        List.filter_filter, List.filter_filter]
      simp only [Bool.and_comm]
    · rw [List.filter_cons_of_neg hx, List.filter_cons_of_neg hx, ← ih, List.filter_filter]
      congr 1
      refine List.filter_congr fun y _ => ?_
      by_cases hy : y = x <;> simp [hy, hx]
termination_by xs => xs.length
decreasing_by exact Nat.lt_succ_of_le (List.length_filter_le _ _)

theorem eraseDups_eraseDups : ∀ xs : List α, xs.eraseDups.eraseDups = xs.eraseDups
  | [] => rfl
  | x :: xs => by
    have ih := eraseDups_eraseDups (xs.filter fun y => !y == x)
    rw [List.eraseDups_cons, List.eraseDups_cons, ← eraseDups_filter, List.filter_filter]
    simp only [Bool.and_self, ih]
termination_by xs => xs.length
decreasing_by exact Nat.lt_succ_of_le (List.length_filter_le _ _)

/-- Elements whose repetitions were erased already do as well between others. -/
theorem eraseDups_splice (before middle after : List α) :
    (before ++ (middle.eraseDups ++ after)).eraseDups = (before ++ (middle ++ after)).eraseDups := by
  have htail : (middle.eraseDups ++ after).eraseDups = (middle ++ after).eraseDups := by
    rw [List.eraseDups_append, List.eraseDups_append, eraseDups_eraseDups]
    congr 2
    refine List.filter_congr fun y _ => ?_
    simp [List.mem_eraseDups]
  rw [List.eraseDups_append, List.eraseDups_append]
  unfold List.removeAll
  rw [eraseDups_filter, eraseDups_filter, htail]

end FirstSeen

namespace DataType

/-! ### The order of types -/

/-- Whether the values of a type have a place in a column of another. -/
def GivesWayTo (a b : DataType) : Prop :=
  a = b ∨ a = .null ∨ (a.isNumeric = true ∧ b = .float64) ∨ b = .utf8

/-- A type is a bound of some types if all of them give way to it, and it gives way to every other type of
which this is true. -/
def IsBound (types : List DataType) (t : DataType) : Prop :=
  (∀ u ∈ types, u.GivesWayTo t) ∧ ∀ t' : DataType, (∀ u ∈ types, u.GivesWayTo t') → t.GivesWayTo t'

/-- The order of the semilattice: numbers give way to doubles, nulls to everything, everything to text. -/
theorem le_iff_givesWayTo (a b : DataType) : a ≤ b ↔ a.GivesWayTo b := by
  constructor
  · intro h
    obtain h | h | h | h := cases_of_le h
    · exact .inr (.inl h)
    · exact .inl h.symm
    · exact .inr (.inr (.inl h))
    · exact .inr (.inr (.inr h))
  · rintro (rfl | rfl | ⟨hnumeric, rfl⟩ | rfl)
    · exact le_rfl
    · exact bot_le
    · have ha : a ≠ .null := by
        rintro rfl
        cases hnumeric
      rw [le_iff, join_of_ne ha (show .float64 ≠ DataType.null from nofun), hnumeric]
      show (if a = .float64 then a else .float64) = .float64
      split
      · assumption
      · rfl
    · by_cases ha : a = .null
      · rw [ha]
        exact bot_le
      · -- Text is no number, so whatever meets it becomes text.
        rw [le_iff, join_of_ne ha (show .utf8 ≠ DataType.null from nofun),
          show isNumeric .utf8 = false from rfl, Bool.and_false]
        split
        · assumption
        · rfl

/-- Types that are joined one after another end in their bound. -/
theorem isBound_joinAll (types : List DataType) : IsBound types (joinAll types) := by
  have hle (t : DataType) : joinAll types ≤ t ↔ ∀ u ∈ types, u ≤ t := by
    induction types with
    | nil => simp [joinAll, show (.null : DataType) ≤ t from bot_le]
    | cons u types ih =>
      show u ⊔ joinAll types ≤ t ↔ _
      rw [sup_le_iff, ih, List.forall_mem_cons]
  constructor
  · intro u hu
    exact (le_iff_givesWayTo _ _).mp ((hle _).mp le_rfl u hu)
  · intro t' ht'
    exact (le_iff_givesWayTo _ _).mp ((hle t').mpr fun u hu => (le_iff_givesWayTo _ _).mpr (ht' u hu))

theorem joinAll_append (types types' : List DataType) :
    joinAll (types ++ types') = (joinAll types).join (joinAll types') := by
  induction types with
  | nil => exact (null_join _).symm
  | cons t types ih =>
    show t.join (joinAll (types ++ types')) = (t.join (joinAll types)).join _
    rw [ih, join_assoc]

end DataType

namespace Schema

/-! ### Merged schemas in closed form -/

/-- The names of merged columns are those of the tables in the order of their first sight. -/
theorem map_name_foldl_mergeField (all : Schema) :
    (all.foldl mergeField []).map Field.name = (all.map Field.name).eraseDups := by
  induction all using List.reverseRecOn with
  | nil => rfl
  | append_singleton all f ih =>
    rw [List.foldl_append, List.foldl_cons, List.foldl_nil, map_name_mergeField, ih, List.map_append,
      List.eraseDups_append]
    show _ = _ ++ ([f.name].filter fun name => !(all.map Field.name).elem name).eraseDups
    by_cases hname : f.name ∈ all.map Field.name
    · rw [if_pos (List.mem_eraseDups.mpr hname), List.filter_cons_of_neg (by simpa using hname)]
      exact (List.append_nil _).symm
    · rw [if_neg (mt List.mem_eraseDups.mp hname), List.filter_cons_of_pos (by simpa using hname)]
      rfl

/-- A merged schema has a column for each name, in the order of their first sight. -/
theorem merge_eq (schemas : List Schema) :
    merge schemas = (schemas.flatten.map Field.name).eraseDups.map fun name =>
      ⟨name, DataType.joinAll (typesOf schemas.flatten name), true⟩ := by
  have hnames : (merge schemas).map Field.name = (schemas.flatten.map Field.name).eraseDups := by
    rw [← map_name_foldl_mergeField, List.foldl_flatten]
    rfl
  rw [← hnames, List.map_map]
  -- What a merged column is follows from its name.
  refine (List.map_id' _).symm.trans (List.map_congr_left fun f hf => ?_)
  obtain ⟨hnullable, -, htype⟩ := ((merged_merge schemas).mem_iff f).mp hf
  exact field_ext rfl htype hnullable

theorem map_name_merge (schemas : List Schema) :
    (merge schemas).map Field.name = (schemas.flatten.map Field.name).eraseDups := by
  rw [merge_eq, List.map_map]
  exact List.map_id' _

theorem typesOf_append (all all' : Schema) (name : String) :
    typesOf (all ++ all') name = typesOf all name ++ typesOf all' name := by
  simp [typesOf]

/-- The types that a merged schema has for a name join to what those of its tables do. -/
theorem joinAll_typesOf_merge (schemas : List Schema) (name : String) :
    DataType.joinAll ((merge schemas).typesOf name) = DataType.joinAll (typesOf schemas.flatten name) := by
  have hmerged := merged_merge schemas
  by_cases hname : name ∈ schemas.flatten.map Field.name
  · -- The name has one column, so there is one type to join.
    have htypes : ∀ t, t ∈ (merge schemas).typesOf name ↔
        t ∈ [DataType.joinAll (typesOf schemas.flatten name)] := by
      intro t
      rw [List.mem_singleton]
      constructor
      · intro ht
        obtain ⟨f, hf, rfl⟩ := List.mem_map.mp ht
        obtain ⟨hf, hfname⟩ := List.mem_filter.mp hf
        rw [((hmerged.mem_iff f).mp hf).2.2, beq_iff_eq.mp hfname]
      · rintro rfl
        have hf := (hmerged.mem_iff ⟨name, DataType.joinAll (typesOf schemas.flatten name), true⟩).mpr
          ⟨rfl, hname, rfl⟩
        exact List.mem_map.mpr ⟨_, List.mem_filter.mpr ⟨hf, beq_self_eq_true name⟩, rfl⟩
    rw [DataType.joinAll_congr htypes]
    exact DataType.join_null _
  · rw [typesOf_eq_nil hname, typesOf_eq_nil fun h => hname ((hmerged.mem_names name).mp h)]

/-- Tables may be merged before they are merged with others. -/
theorem merge_splice (before middle after : List Schema) :
    merge (before ++ merge middle :: after) = merge (before ++ middle ++ after) := by
  have hflatten : (before ++ merge middle :: after).flatten
      = before.flatten ++ (merge middle ++ after.flatten) := by simp
  have hflatten' : (before ++ middle ++ after).flatten
      = before.flatten ++ (middle.flatten ++ after.flatten) := by simp
  rw [merge_eq, merge_eq (before ++ middle ++ after), hflatten, hflatten']
  have hnames : ((before.flatten ++ (merge middle ++ after.flatten)).map Field.name).eraseDups
      = ((before.flatten ++ (middle.flatten ++ after.flatten)).map Field.name).eraseDups := by
    simp only [List.map_append, map_name_merge]
    exact eraseDups_splice _ _ _
  rw [hnames]
  refine List.map_congr_left fun name _ => ?_
  simp only [typesOf_append, DataType.joinAll_append, joinAll_typesOf_merge]

/-- Merged columns are looked up by what they are merged from. -/
theorem Merged.column?_eq {columns all : Schema} (h : Merged columns all) (name : String) :
    columns.column? name = if name ∈ all.map Field.name
      then some ⟨name, DataType.joinAll (typesOf all name), true⟩ else none := by
  cases hf : columns.column? name with
  | none =>
    rw [if_neg]
    intro hname
    obtain ⟨f, hmem, rfl⟩ := List.mem_map.mp ((h.mem_names name).mpr hname)
    have hdiffers := List.find?_eq_none.mp hf f hmem
    simp at hdiffers
  | some f =>
    obtain rfl : f.name = name := by simpa using List.find?_some hf
    obtain ⟨hnullable, hname, htype⟩ := (h.mem_iff f).mp (List.mem_of_find?_eq_some hf)
    rw [if_pos hname]
    exact congrArg some (field_ext rfl htype hnullable)

/-- A merged schema has each name of its tables once, in the order in which they are first seen. Its columns
are nullable, and each has the least type that the types of all columns of its name give way to. The types
depend neither on the order of the tables nor on how often each of them is there, and tables may be merged
before they are merged with others. -/
theorem merge_bound (schemas : List Schema) :
    ((merge schemas).map Field.name).Nodup ∧
    (merge schemas).map Field.name = (schemas.flatten.map Field.name).eraseDups ∧
    (∀ f ∈ merge schemas, f.nullable = true ∧ DataType.IsBound (typesOf schemas.flatten f.name) f.type) ∧
    (∀ schemas' : List Schema, (∀ s, s ∈ schemas' ↔ s ∈ schemas) → ∀ name,
      (merge schemas').column? name = (merge schemas).column? name) ∧
    ∀ before after : List Schema,
      merge (before ++ merge schemas :: after) = merge (before ++ schemas ++ after) := by
  refine ⟨(merged_merge schemas).nodup, map_name_merge schemas, ?_, ?_,
    fun before after => merge_splice before schemas after⟩
  · intro f hf
    obtain ⟨hnullable, -, htype⟩ := ((merged_merge schemas).mem_iff f).mp hf
    rw [htype]
    exact ⟨hnullable, DataType.isBound_joinAll _⟩
  · intro schemas' hsame name
    have hall : ∀ f, f ∈ schemas'.flatten ↔ f ∈ schemas.flatten := by
      intro f
      simp only [List.mem_flatten, hsame]
    -- What is merged from columns is merged from them in any order.
    have hmerged := (merged_merge schemas').congr hall
    rw [hmerged.column?_eq, (merged_merge schemas).column?_eq]

/-- A column of whole numbers, of nothing, and of fractions; the tables the other way round, one of them
twice. -/
theorem merge_bound_weights :
    let whole : Schema := [⟨"weight", .int64, false⟩, ⟨"place", .utf8, true⟩]
    let unknown : Schema := [⟨"day", .date, true⟩, ⟨"weight", .null, true⟩]
    let parts : Schema := [⟨"weight", .float64, true⟩, ⟨"day", .null, true⟩]
    Schema.merge [whole, unknown, parts]
        = [⟨"weight", .float64, true⟩, ⟨"place", .utf8, true⟩, ⟨"day", .date, true⟩] ∧
      (Schema.merge [parts, whole, unknown, parts]).column? "weight"
        = (Schema.merge [whole, unknown, parts]).column? "weight" ∧
      Schema.merge [Schema.merge [whole, unknown, parts], parts]
        = Schema.merge [whole, unknown, parts, parts] := by
  intro whole unknown parts
  obtain ⟨-, -, -, hsame, hsplice⟩ := merge_bound [whole, unknown, parts]
  refine ⟨by decide, hsame [parts, whole, unknown, parts] (fun s => ?_) "weight", hsplice [] [parts]⟩
  simp only [List.mem_cons, List.not_mem_nil, or_false]
  tauto

end Schema

end SourceTables

import SourceTables.Partition.Layout
import SourceTables.Partition.Literal
import SourceTables.Proofs.Keyed
import SourceTables.Proofs.Outcome
import SourceTables.Proofs.TextType

/-!
# `SourceTables.Proofs.Partition.Typing`: the values of keys and of detected partitions

The values of a key are looked at three times: their type is found from all of them, each is read as a
literal of that type, and the literal becomes a column. That the three agree is said through a relation of
its own, which tells for each type how a text stands under it as a literal and as a cell. Texts that stand
for null take no part in it, and they are the only ones that become nulls.

A value fits a type when it is null or of the literals that the type is for, and a partition fits
some keys when it has a fitting value for each of them, in their order.

The theorems:

* `Literal.parse_eq_null_iff`: which texts are read as null.
* `Literal.exists_reading`: a text that helped to find a type has a reading under it.
* `Literal.readings_of_inferType`: no value of a key is lost on its way into a column.
* `Literal.fits_parse`: a text that took part in finding a type reads as a value of that type.
* `Detection.fits_of_layoutOf`: the partitions of a detected layout fit its keys. Two things carry
  this: all chains that are left have the same keys, and the type of a key was found from the values
  of all of them, those of empty directories included.
-/

set_option autoImplicit false

namespace SourceTables

namespace Literal

/-- How a text that does not stand for null is read under a type: the literal and the cell. -/
inductive Reading : TextType → String → Literal → Cell → Prop
  | integer {raw : String} {n : Int} (h : Number.int64? raw = some n) :
    Reading .integer raw (.integer n) (.int n)
  | decimal {raw : String} {x : Float} (h : Number.double? raw = some x) :
    Reading .decimal raw (.decimal x) (.float x)
  | truth {raw : String} {b : Bool} (h : Number.truth? raw = some b) :
    Reading .truth raw (.boolean b) (.bool b)
  | text {raw : String} : Reading .text raw (.text raw) (.text raw)

variable {type : TextType} {raw : String} {l : Literal} {c : Cell}

/-! ### Readings -/

/-- Reading a text as a literal gives the literal of its reading. -/
theorem Reading.read?_eq (h : Reading type raw l c) : read? type raw = some l := by
  cases h with
  | integer h | decimal h | truth h => simp [read?, h]
  | text => rfl

/-- A column shows the cell of the reading. -/
theorem Reading.cell_eq (h : Reading type raw l c) : l.cell type = c := by
  cases h <;> rfl

theorem Reading.isNull_eq (h : Reading type raw l c) : c.isNull = false := by
  cases h <;> rfl

/-- A text has a reading under each type that it was found to read under. -/
theorem exists_reading_of_read? (h : (type.read? raw).isSome = true) : ∃ l c, Reading type raw l c := by
  obtain ⟨c, hc⟩ := Option.isSome_iff_exists.mp h
  cases type with
  | integer =>
    obtain ⟨n, hn, -⟩ := Option.map_eq_some_iff.mp hc
    exact ⟨_, _, .integer hn⟩
  | decimal =>
    obtain ⟨x, hx, -⟩ := Option.map_eq_some_iff.mp hc
    exact ⟨_, _, .decimal hx⟩
  | truth =>
    obtain ⟨b, hb, -⟩ := Option.map_eq_some_iff.mp hc
    exact ⟨_, _, .truth hb⟩
  | text => exact ⟨_, _, .text⟩

/-! ### Values of a key -/

/-- Nothing but the empty text and the marker is read as null. -/
theorem parse_eq_null_iff (raw : String) (type : TextType) :
    parse raw type = .null ↔ raw = "" ∨ raw = defaultMarker := by
  have hnull : isNullText raw = true ↔ raw = "" ∨ raw = defaultMarker := by
    simp [isNullText]
  rw [← hnull]
  unfold parse
  split
  · next h => simp [h]
  · next h =>
    -- Under no type is the literal of a text null, whether the text reads or not.
    have hread : (read? type raw).getD (.text raw) ≠ .null := by
      intro heq
      cases hl : read? type raw with
      | none => simp [hl] at heq
      | some l =>
        rw [hl, Option.getD_some] at heq
        subst heq
        cases type <;> simp [read?] at hl
    simp [h, hread]

/-- A text of a key that is not null is read as a literal of the key's type. -/
theorem exists_reading {raws : List String} (hraw : raw ∈ raws)
    (hnull : parse raw (inferType raws) ≠ .null) :
    ∃ c, Reading (inferType raws) raw (parse raw (inferType raws)) c := by
  have hvalue : isNullText raw = false := by
    cases h : isNullText raw with
    | false => rfl
    | true => exact absurd (by simp [parse, h]) hnull
  -- The text is one of those that the type was found from.
  have hmem : raw ∈ raws.filter fun raw => !isNullText raw :=
    List.mem_filter.mpr ⟨hraw, by simp [hvalue]⟩
  obtain ⟨l, c, hreading⟩ := exists_reading_of_read? ((TextType.types_infer _).reads raw hmem)
  have hparse : parse raw (inferType raws) = l := by
    unfold parse
    rw [hvalue, show read? (inferType raws) raw = some l from hreading.read?_eq]
    rfl
  exact ⟨c, hparse ▸ hreading⟩

/-- The type of a key is the first under which all of its values read that are not null. Each of them is
then a literal of just this type, and its column repeats the value that was read; the other values are null,
and their columns hold nulls. -/
theorem readings_of_inferType (raws : List String) (count : Nat) :
    let type := inferType raws
    type.Types (raws.filter fun raw => !isNullText raw) ∧
    ∀ raw ∈ raws,
      (parse raw type = .null ↔ raw = "" ∨ raw = defaultMarker) ∧
      (parse raw type = .null → (parse raw type).column type count = List.replicate count .null) ∧
      (parse raw type ≠ .null → ∃ c, Reading type raw (parse raw type) c ∧ c.isNull = false ∧
        (parse raw type).column type count = List.replicate count c) := by
  intro type
  refine ⟨TextType.types_infer _, fun raw hraw => ⟨parse_eq_null_iff raw type, fun hnull => ?_,
    fun hvalue => ?_⟩⟩
  · rw [hnull]
    rfl
  · obtain ⟨c, hreading⟩ := exists_reading hraw hvalue
    refine ⟨c, hreading, hreading.isNull_eq, ?_⟩
    show List.replicate count _ = _
    rw [hreading.cell_eq]

/-- A whole number beside a fraction is a double, and the marker beside it is null. -/
theorem readings_of_measures :
    let type := inferType ["2", defaultMarker, "1.5"]
    type = .decimal ∧
      (∃ x, parse "2" type = .decimal x ∧ (parse "2" type).column type 2 = [.float x, .float x]) ∧
      (parse defaultMarker type).column type 2 = [.null, .null] := by
  intro type
  have htype : type = .decimal := by decide +kernel
  obtain ⟨-, hall⟩ := readings_of_inferType ["2", defaultMarker, "1.5"] 2
  obtain ⟨hmarker, hnulls, -⟩ := hall defaultMarker (by simp)
  obtain ⟨htwo, -, hvalue⟩ := hall "2" (by simp)
  obtain ⟨c, hreading, -, hcolumn⟩ := hvalue fun h => absurd (htwo.mp h) (by decide)
  refine ⟨htype, ?_, hnulls (hmarker.mpr (.inr rfl))⟩
  rw [show inferType ["2", defaultMarker, "1.5"] = .decimal from htype] at hreading hcolumn
  rw [htype]
  generalize parse "2" .decimal = l at hreading hcolumn ⊢
  cases hreading with
  | decimal h => exact ⟨_, rfl, hcolumn⟩

end Literal

/-! ### Values and their types -/

/-- Whether a literal is null or one of those that a type is for. -/
def Literal.Fits (type : TextType) : Literal → Prop
  | .integer _ => type = .integer
  | .decimal _ => type = .decimal
  | .boolean _ => type = .truth
  | .text _ => type = .text
  | .null => True

/-- Whether a partition has a fitting value for each key, in order. -/
def Partition.Fits (keys : List PartitionKey) (p : Partition) : Prop :=
  List.Forall₂ (fun value key => value.1 = key.name ∧ value.2.Fits key.type) p.values keys

theorem Literal.Reading.fits {type : TextType} {raw : String} {l : Literal} {c : Cell}
    (h : Reading type raw l c) : l.Fits type := by
  cases h <;> rfl

/-- A text that took part in finding a type reads as a value of that type. -/
theorem Literal.fits_parse {raws : List String} {raw : String} (hraw : raw ∈ raws) :
    (Literal.parse raw (inferType raws)).Fits (inferType raws) := by
  by_cases hnull : Literal.parse raw (inferType raws) = .null
  · rw [hnull]
    trivial
  · obtain ⟨c, hreading⟩ := exists_reading hraw hnull
    exact hreading.fits

/-! ### The value of a key -/

/-- The value that a fitting partition has for a name is that of a key with this name. -/
theorem Partition.Fits.exists_key {keys : List PartitionKey} {p : Partition} (h : p.Fits keys)
    {name : String} {value : Literal} (hvalue : p.value? name = some value) :
    ∃ key ∈ keys, key.name = name ∧ value.Fits key.type := by
  obtain ⟨values, directory, files⟩ := p
  change List.Forall₂ _ values keys at h
  change (values.find? (fun v => v.1 == name)).map Prod.snd = some value at hvalue
  induction h with
  | nil => simp at hvalue
  | @cons v key values keys hv _ ih =>
    rw [List.find?_cons] at hvalue
    split at hvalue
    · next hname =>
      have hname : v.1 = name := by simpa using hname
      have hval : v.2 = value := by simpa using hvalue
      refine ⟨key, List.mem_cons_self, ?_, ?_⟩
      · rw [← hv.1, hname]
      · rw [← hval]
        exact hv.2
    · obtain ⟨key', hmem, hkey'⟩ := ih hvalue
      exact ⟨key', List.mem_cons_of_mem _ hmem, hkey'⟩

/-! ### Detected layouts -/

namespace Detection

/-- Keys that pass the comparison are those expected. -/
theorem eq_of_checkKeys {dir : Path} {keys expected : List String}
    (h : checkKeys dir keys expected = .ok ()) : keys = expected := by
  unfold checkKeys at h
  split at h
  · assumption
  · split at h
    · cases h
    · split at h <;> cases h

/-- What adding the empty partition of a directory can do: nothing, or add a group without files that
has the expected keys. -/
theorem addEmpty_cases {expected : List String}
    {groups groups' : Keyed (List Component) ChainGroup} {dir : Path} {chain : Chain}
    (h : addEmpty expected groups (dir, chain) = .ok groups') :
    (groups' = groups ∧ (groups.contains dir.components ∨
      chain.keys.length < expected.length ∧ chain.keys.isPrefixOf expected)) ∨
    (groups' = groups.insert dir.components ⟨dir, chain, []⟩ ∧
      ¬ groups.contains dir.components ∧ chain.keys = expected) := by
  unfold addEmpty at h
  simp only at h
  split at h
  · next hc =>
    cases h
    exact .inl ⟨rfl, .inl hc⟩
  · next hc =>
    split at h
    · next hp =>
      cases h
      exact .inl ⟨rfl, .inr (by simpa using hp)⟩
    · obtain ⟨_, hcheck, h⟩ := Outcome.bind_eq_ok.mp h
      cases h
      exact .inr ⟨rfl, hc, eq_of_checkKeys hcheck⟩

/-- Adding empty partitions leaves all chains with the expected keys. -/
theorem keys_of_addEmpty {expected : List String} {dirs : List (Path × Chain)}
    {groups groups' : Keyed (List Component) ChainGroup}
    (h : dirs.foldlM (addEmpty expected) groups = .ok groups')
    (hgroups : ∀ group ∈ groups.values, group.chain.keys = expected) :
    ∀ group ∈ groups'.values, group.chain.keys = expected := by
  induction dirs generalizing groups with
  | nil =>
    cases h
    exact hgroups
  | cons dir rest ih =>
    rw [List.foldlM_cons] at h
    obtain ⟨next, hnext, h⟩ := Outcome.bind_eq_ok.mp h
    refine ih h fun group hgroup => ?_
    obtain ⟨rfl, -⟩ | ⟨rfl, -, hkeys⟩ := addEmpty_cases hnext
    · exact hgroups group hgroup
    · rcases Keyed.mem_values_insert hgroup with rfl | hgroup
      · exact hkeys
      · exact hgroups group hgroup

/-- The partition of a group fits the keys, if these were typed with its chain among others. -/
theorem fits_partitionOf {expected : List String} {chains : List Chain} {group : ChainGroup}
    (hmem : group.chain ∈ chains) (hkeys : group.chain.keys = expected) :
    (partitionOf (typedKeys expected chains) group).Fits (typedKeys expected chains) := by
  have hlength : group.chain.length = (typedKeys expected chains).length := by
    rw [← hkeys]
    simp [typedKeys, Chain.keys]
  refine List.forall₂_iff_get.mpr ⟨?_, ?_⟩
  · show (group.chain.zipWith _ _).length = _
    rw [List.length_zipWith, hlength, Nat.min_self]
  · intro i hi hi'
    have hchain : i < group.chain.length := by omega
    have hname : ((typedKeys expected chains)[i]).name = (group.chain[i]).key := by
      subst hkeys
      simp [typedKeys, Chain.keys]
    have htype : ((typedKeys expected chains)[i]).type
        = Literal.inferType (chains.filterMap fun chain => chain[i]?.map KeyValue.value) := by
      simp [typedKeys]
    have hraw : (group.chain[i]).value
        ∈ chains.filterMap fun chain => chain[i]?.map KeyValue.value :=
      List.mem_filterMap.mpr ⟨group.chain, hmem, by rw [List.getElem?_eq_getElem hchain]; rfl⟩
    simp only [partitionOf, List.get_eq_getElem, List.getElem_zipWith]
    refine ⟨hname.symm, ?_⟩
    rw [htype]
    exact Literal.fits_parse hraw

/-- The partitions of a detected layout fit its keys. -/
theorem fits_of_layoutOf {d : Detection} {root : Path} {entries : List Entry} {layout : Layout}
    (h : d.layoutOf root entries = .ok layout) :
    ∀ p ∈ layout.partitions, p.Fits layout.keys := by
  unfold layoutOf at h
  obtain ⟨gathered, -, h⟩ := Outcome.bind_eq_ok.mp h
  obtain ⟨_, hchecks, h⟩ := Outcome.bind_eq_ok.mp h
  have hgroups : ∀ group ∈ gathered.groups.values,
      group.chain.keys = expectedKeys gathered.groups :=
    fun group hgroup => eq_of_checkKeys (Outcome.ok_of_forIn hchecks group hgroup)
  split at h
  · cases h
    intro p hp
    rw [List.mem_singleton.mp hp]
    exact .nil
  · obtain ⟨groups, hadd, h⟩ := Outcome.bind_eq_ok.mp h
    cases h
    intro p hp
    obtain ⟨group, hgroup, rfl⟩ := List.mem_map.mp hp
    exact fits_partitionOf (List.mem_map.mpr ⟨group, hgroup, rfl⟩)
      (keys_of_addEmpty hadd hgroups group hgroup)

/-- Detecting a listing gives the layout of its entries. -/
theorem detectListing_eq_ok {d : Detection} {root : Path} {entries : List Entry} {layout : Layout} :
    d.detectListing root entries = .ok layout ↔ d.layoutOf root entries = .ok layout := by
  unfold detectListing
  split
  · next h => rw [h, Except.ok.injEq, Except.ok.injEq]
  · next h =>
    rw [h]
    exact ⟨nofun, nofun⟩

end Detection

end SourceTables

import Mathlib.Data.List.Forall2
import SourceTables.Keyed

/-!
# `SourceTables.Proofs.Keyed`: maps that are in the order of their keys

A map is sorted when each key is below all that come after it. Everything that is written into a sorted
map leaves it sorted, so that each key has one place.

The theorems:

* `keys_insert_congr`, `keys_ofList_congr`: values make no difference to keys.
* `sorted_insert`, `sorted_ofList`: what is written stays sorted.
* `get?_eq_some_iff`: a sorted map has just the pairs that look-ups find.
* `keys_eq_of_contains`: sorted maps that have the same keys have them in the same order.
* `insert_of_lt`: a key above all others is put at the end.
* `ofList_entries`: a sorted map is the map of its own pairs.
-/

set_option autoImplicit false

namespace SourceTables.Keyed

variable {κ α : Type} [DecidableEq κ] [Ord κ]

/-! ### Pairs of a map -/

/-- The pairs after a write are the one written and earlier ones. -/
theorem mem_insert {m : Keyed κ α} {k : κ} {v : α} {e : κ × α} (he : e ∈ (m.insert k v).entries) :
    e = (k, v) ∨ e ∈ m.entries := by
  obtain ⟨entries⟩ := m
  change e ∈ place k v entries at he
  induction entries with
  | nil => exact .inl (List.mem_singleton.mp he)
  | cons e' rest ih =>
    unfold place at he
    split at he
    · exact (List.mem_cons.mp he).imp_right (.tail _)
    · split at he
      · exact List.mem_cons.mp he
      · obtain rfl | he := List.mem_cons.mp he
        · exact .inr (.head _)
        · exact (ih he).imp_right (.tail _)

/-- The values after a write are the one written and earlier ones. -/
theorem mem_values_insert {m : Keyed κ α} {k : κ} {v x : α} (hx : x ∈ (m.insert k v).values) :
    x = v ∨ x ∈ m.values := by
  obtain ⟨e, he, rfl⟩ := List.mem_map.mp hx
  obtain rfl | he := mem_insert he
  · exact .inl rfl
  · exact .inr (List.mem_map_of_mem he)

/-- A pair with a new key comes beside the pairs that are there. -/
theorem perm_insert {m : Keyed κ α} {k : κ} (h : k ∉ m.keys) (v : α) :
    (m.insert k v).entries.Perm ((k, v) :: m.entries) := by
  obtain ⟨entries⟩ := m
  show (place k v entries).Perm _
  induction entries with
  | nil => exact .refl _
  | cons e rest ih =>
    simp only [keys, List.map_cons, List.mem_cons, not_or] at h
    rw [place, if_neg h.1]
    split
    · exact .refl _
    · exact ((ih h.2).cons e).trans (.swap ..)

/-- Maps with the same keys and related values are so after writes of related values to the same key. -/
theorem forall₂_place {β : Type} {R : κ × α → κ × β → Prop} {xs : List (κ × α)} {ys : List (κ × β)}
    (hkeys : ∀ x y, R x y → y.1 = x.1) (h : List.Forall₂ R xs ys) {k : κ} {v : α} {v' : β}
    (hnew : R (k, v) (k, v')) : List.Forall₂ R (place k v xs) (place k v' ys) := by
  induction h with
  | nil => exact .cons hnew .nil
  | @cons x y xs ys hfirst hrest ih =>
    obtain ⟨k₁, v₁⟩ := x
    obtain ⟨k₂, v₂⟩ := y
    obtain rfl : k₂ = k₁ := hkeys _ _ hfirst
    unfold place
    split
    · exact .cons hnew hrest
    · split
      · exact .cons hnew (.cons hfirst hrest)
      · exact .cons hfirst ih

/-- The pairs of a map of pairs are among these. -/
theorem mem_ofList {pairs : List (κ × α)} {e : κ × α} (he : e ∈ (ofList pairs).entries) : e ∈ pairs := by
  have fold (pairs : List (κ × α)) (m : Keyed κ α)
      (he : e ∈ (pairs.foldl (fun m e => m.insert e.1 e.2) m).entries) : e ∈ m.entries ∨ e ∈ pairs := by
    induction pairs generalizing m with
    | nil => exact .inl he
    | cons first rest ih =>
      obtain he | he := ih _ he
      · exact (mem_insert he).elim (fun heq => .inr (heq ▸ .head _)) .inl
      · exact .inr (.tail _ he)
  exact (fold pairs empty he).resolve_left List.not_mem_nil

/-- A map of pairs has all their keys. -/
theorem get?_ofList_of_mem {pairs : List (κ × α)} {k : κ} {v : α} (h : (k, v) ∈ pairs) :
    ∃ v', (ofList pairs).get? k = some v' := by
  have fold (pairs : List (κ × α)) (m : Keyed κ α)
      (hk : (∃ v', m.get? k = some v') ∨ (k, v) ∈ pairs) :
      ∃ v', (pairs.foldl (fun m e => m.insert e.1 e.2) m).get? k = some v' := by
    induction pairs generalizing m with
    | nil => exact hk.resolve_right List.not_mem_nil
    | cons first rest ih =>
      refine ih _ ?_
      by_cases hfirst : k = first.1
      · exact .inl ⟨first.2, by rw [get?_insert, if_pos hfirst]⟩
      · obtain ⟨v', hv'⟩ | hmem := hk
        · exact .inl ⟨v', by rw [get?_insert, if_neg hfirst, hv']⟩
        · exact .inr ((List.mem_cons.mp hmem).resolve_left fun heq => hfirst (congrArg Prod.fst heq))
  exact fold pairs empty (.inr h)

/-- Which keys there are after a write depends on the keys before it alone. -/
theorem keys_insert_congr {m m' : Keyed κ α} (h : m.keys = m'.keys) (k : κ) (v v' : α) :
    (m.insert k v).keys = (m'.insert k v').keys := by
  obtain ⟨entries⟩ := m
  obtain ⟨entries'⟩ := m'
  change entries.map Prod.fst = entries'.map Prod.fst at h
  show (place k v entries).map Prod.fst = (place k v' entries').map Prod.fst
  induction entries generalizing entries' with
  | nil =>
    obtain rfl := List.map_eq_nil_iff.mp h.symm
    rfl
  | cons e rest ih =>
    obtain ⟨e', rest', rfl, hkey, hrest⟩ := List.map_eq_cons_iff.mp h.symm
    rw [place, place, hkey]
    split
    · rw [List.map_cons, List.map_cons, hrest]
    · split
      · rw [List.map_cons, List.map_cons, List.map_cons, List.map_cons, hrest]
      · rw [List.map_cons, List.map_cons, ih rest' hrest.symm]

/-- The keys of a map of pairs depend on the keys of the pairs alone. -/
theorem keys_ofList_congr {pairs pairs' : List (κ × α)}
    (h : pairs.map Prod.fst = pairs'.map Prod.fst) : (ofList pairs).keys = (ofList pairs').keys := by
  have fold (m m' : Keyed κ α) (hm : m.keys = m'.keys) :
      (pairs.foldl (fun m e => m.insert e.1 e.2) m).keys
        = (pairs'.foldl (fun m e => m.insert e.1 e.2) m').keys := by
    induction pairs generalizing pairs' m m' with
    | nil =>
      obtain rfl := List.map_eq_nil_iff.mp h.symm
      exact hm
    | cons e rest ih =>
      obtain ⟨e', rest', rfl, hkey, hrest⟩ := List.map_eq_cons_iff.mp h.symm
      rw [List.foldl_cons, List.foldl_cons, hkey]
      exact ih hrest.symm _ _ (keys_insert_congr hm _ _ _)
  exact fold empty empty rfl

omit [Ord κ] in
/-- What a look-up finds is in the map. -/
theorem mem_of_get? {m : Keyed κ α} {k : κ} {v : α} (h : m.get? k = some v) :
    (k, v) ∈ m.entries := by
  obtain ⟨entries⟩ := m
  change lookup k entries = some v at h
  induction entries with
  | nil => cases h
  | cons e rest ih =>
    rw [lookup] at h
    split at h
    · next hk =>
      cases h
      rw [hk]
      exact .head _
    · exact .tail _ (ih h)

omit [Ord κ] in
/-- A map has a key if a look-up finds a value. -/
theorem contains_iff {m : Keyed κ α} {k : κ} : m.contains k = true ↔ ∃ v, m.get? k = some v :=
  Option.isSome_iff_exists

omit [Ord κ] in
/-- A map has the keys that it is asked about. -/
theorem contains_eq (m : Keyed κ α) : m.contains = m.keys.contains := by
  funext k
  unfold contains get? keys
  induction m.entries with
  | nil => rfl
  | cons e rest ih =>
    rw [lookup, List.map_cons, List.contains_cons, ← ih]
    by_cases hk : k = e.1 <;> simp [hk]

omit [Ord κ] in
theorem mem_keys_iff {m : Keyed κ α} {k : κ} : k ∈ m.keys ↔ m.contains k = true := by
  rw [contains_eq]
  exact List.contains_iff_mem.symm

/-! ### Sorted maps -/

/-- Whether each key is below those after it. -/
def Sorted (m : Keyed κ α) : Prop := m.entries.Pairwise fun a b => compare a.1 b.1 = .lt

omit [DecidableEq κ] in
/-- The map without entries is sorted. -/
theorem sorted_empty : Sorted (empty : Keyed κ α) := List.Pairwise.nil

variable [Std.TransOrd κ]

omit [DecidableEq κ] in
/-- A key is not below itself. -/
theorem ne_of_lt {k k' : κ} (h : compare k k' = .lt) : k ≠ k' := by
  rintro rfl
  have hself : compare k k = .eq := Std.ReflCmp.compare_self
  rw [hself] at h
  cases h

omit [DecidableEq κ] in
/-- A sorted map has no key twice. -/
theorem nodup_keys {m : Keyed κ α} (hm : m.Sorted) : m.keys.Nodup :=
  List.pairwise_map.mpr (hm.imp ne_of_lt)

/-- A sorted map has just the pairs that look-ups find. -/
theorem get?_eq_some_iff {m : Keyed κ α} (hm : m.Sorted) {k : κ} {v : α} :
    m.get? k = some v ↔ (k, v) ∈ m.entries := by
  refine ⟨mem_of_get?, fun h => ?_⟩
  obtain ⟨entries⟩ := m
  change entries.Pairwise _ at hm
  show lookup k entries = some v
  induction entries with
  | nil => cases h
  | cons e rest ih =>
    obtain ⟨hfirst, hrest⟩ := List.pairwise_cons.mp hm
    rw [lookup]
    obtain rfl | h := List.mem_cons.mp h
    · exact if_pos rfl
    · rw [if_neg (ne_of_lt (hfirst (k, v) h)).symm]
      exact ih h hrest

/-- Sorted maps that have the same keys have them in the same order. -/
theorem keys_eq_of_contains {β : Type} {m : Keyed κ α} {m' : Keyed κ β} (hm : m.Sorted) (hm' : m'.Sorted)
    (h : ∀ k, m.contains k = true ↔ m'.contains k = true) : m.keys = m'.keys := by
  have hperm : m.keys.Perm m'.keys :=
    (List.perm_ext_iff_of_nodup (nodup_keys hm) (nodup_keys hm')).mpr fun k => by
      rw [mem_keys_iff, mem_keys_iff, h]
  have hsorted : m.keys.Pairwise fun a b => compare a b = .lt := List.pairwise_map.mpr hm
  have hsorted' : m'.keys.Pairwise fun a b => compare a b = .lt := List.pairwise_map.mpr hm'
  refine hperm.eq_of_pairwise (fun a b _ _ hab hba => ?_) hsorted hsorted'
  exact absurd (hab.symm.trans (Std.OrientedCmp.gt_iff_lt.mpr hba)) nofun

/-- A key above all others is put at the end. -/
theorem insert_of_lt {m : Keyed κ α} {k : κ} (h : ∀ e ∈ m.entries, compare e.1 k = .lt) (v : α) :
    m.insert k v = ⟨m.entries ++ [(k, v)]⟩ := by
  obtain ⟨entries⟩ := m
  show (⟨place k v entries⟩ : Keyed κ α) = _
  congr 1
  induction entries with
  | nil => rfl
  | cons e rest ih =>
    have hlt := h e (.head _)
    have hge : ¬ compare k e.1 = .lt := by
      rw [Std.OrientedCmp.gt_iff_lt.mpr hlt]
      exact nofun
    rw [place, if_neg (ne_of_lt hlt).symm, if_neg hge, List.cons_append, ih fun e' he' => h e' (.tail _ he')]

/-- A key above all others is not there. -/
theorem get?_of_lt {m : Keyed κ α} {k : κ} (h : ∀ e ∈ m.entries, compare e.1 k = .lt) :
    m.get? k = none := by
  cases hget : m.get? k with
  | none => rfl
  | some v => exact absurd rfl (ne_of_lt (h _ (mem_of_get? hget)))

/-- A sorted map is the map of its own pairs. -/
theorem ofList_entries {m : Keyed κ α} (hm : m.Sorted) : ofList m.entries = m := by
  have fold (before after : List (κ × α))
      (h : (before ++ after).Pairwise fun a b => compare a.1 b.1 = .lt) :
      after.foldl (fun m e => m.insert e.1 e.2) ⟨before⟩ = (⟨before ++ after⟩ : Keyed κ α) := by
    induction after generalizing before with
    | nil => rw [List.append_nil, List.foldl_nil]
    | cons e rest ih =>
      have hbefore : ∀ e' ∈ before, compare e'.1 e.1 = .lt :=
        fun e' he' => (List.pairwise_append.mp h).2.2 e' he' e (.head _)
      rw [List.foldl_cons, insert_of_lt hbefore e.2, ih _ (by simpa using h)]
      simp
  exact fold [] m.entries hm

variable [Std.LawfulEqOrd κ]

/-- A write leaves a map sorted. -/
theorem sorted_insert {m : Keyed κ α} (hm : m.Sorted) (k : κ) (v : α) : (m.insert k v).Sorted := by
  obtain ⟨entries⟩ := m
  change entries.Pairwise _ at hm
  show (place k v entries).Pairwise _
  induction entries with
  | nil => exact List.pairwise_singleton _ _
  | cons e rest ih =>
    obtain ⟨hfirst, hrest⟩ := List.pairwise_cons.mp hm
    unfold place
    split
    · next hk => exact List.pairwise_cons.mpr ⟨hk ▸ hfirst, hrest⟩
    · next hk =>
      split
      · next hlt =>
        refine List.pairwise_cons.mpr ⟨fun e' he' => ?_, hm⟩
        obtain rfl | he' := List.mem_cons.mp he'
        · exact hlt
        · exact Std.TransCmp.lt_trans hlt (hfirst e' he')
      · next hge =>
        refine List.pairwise_cons.mpr ⟨fun e' he' => ?_, ih hrest⟩
        have hplace : e' = (k, v) ∨ e' ∈ rest := mem_insert (m := ⟨rest⟩) he'
        obtain rfl | he' := hplace
        · -- A key that is neither the same nor below is above.
          cases hcompare : compare e.1 k with
          | lt => rfl
          | eq => exact absurd (Std.LawfulEqOrd.eq_of_compare hcompare).symm hk
          | gt => exact absurd (Std.OrientedCmp.gt_iff_lt.mp hcompare) hge
        · exact hfirst e' he'

/-- A map of pairs is sorted. -/
theorem sorted_ofList (pairs : List (κ × α)) : (ofList pairs).Sorted := by
  have fold (m : Keyed κ α) (hm : m.Sorted) :
      (pairs.foldl (fun m e => m.insert e.1 e.2) m).Sorted := by
    induction pairs generalizing m with
    | nil => exact hm
    | cons e rest ih => exact ih _ (sorted_insert hm e.1 e.2)
  exact fold empty sorted_empty

end SourceTables.Keyed

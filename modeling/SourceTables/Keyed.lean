/-!
# `SourceTables.Keyed`: maps kept in the order of their keys

A map is a list of pairs, each key once, in the order of the keys. Writing to a key replaces its
value in place or puts the pair where the order wants it.

Main statements: `get?_insert` and `get?_erase` say what each operation does to look-ups.
-/

set_option autoImplicit false

namespace SourceTables

/-- A map in the order of its keys. -/
structure Keyed (κ α : Type) where
  entries : List (κ × α)
deriving DecidableEq

namespace Keyed

variable {κ α : Type}

/-- The map without entries. -/
def empty : Keyed κ α := ⟨[]⟩

instance : Inhabited (Keyed κ α) := ⟨empty⟩

variable [DecidableEq κ]

/-- The value of a key. -/
def lookup (k : κ) : List (κ × α) → Option α
  | [] => none
  | (k', v) :: rest => if k = k' then some v else lookup k rest

/-- The value of a key. -/
def get? (m : Keyed κ α) (k : κ) : Option α := lookup k m.entries

/-- Whether a key has a value. -/
def contains (m : Keyed κ α) (k : κ) : Bool := (m.get? k).isSome

/-- The keys in order. -/
def keys (m : Keyed κ α) : List κ := m.entries.map Prod.fst

/-- The values in the order of their keys. -/
def values (m : Keyed κ α) : List α := m.entries.map Prod.snd

/-- How many keys have a value. -/
def size (m : Keyed κ α) : Nat := m.entries.length

/-- Whether no key has a value. -/
def isEmpty (m : Keyed κ α) : Bool := m.entries.isEmpty

/-- The entries without a key. -/
def without (k : κ) (entries : List (κ × α)) : List (κ × α) :=
  entries.filter (fun e => e.1 ≠ k)

/-- The map without a key. -/
def erase (m : Keyed κ α) (k : κ) : Keyed κ α := ⟨without k m.entries⟩

variable [Ord κ]

/-- Writes a pair into ordered entries. -/
def place (k : κ) (v : α) : List (κ × α) → List (κ × α)
  | [] => [(k, v)]
  | (k', v') :: rest =>
    if k = k' then (k, v) :: rest
    else if compare k k' = .lt then (k, v) :: (k', v') :: rest
    else (k', v') :: place k v rest

/-- The map with a value for a key. -/
def insert (m : Keyed κ α) (k : κ) (v : α) : Keyed κ α := ⟨place k v m.entries⟩

/-- The map of pairs; the last value of a key stands. -/
def ofList (pairs : List (κ × α)) : Keyed κ α :=
  pairs.foldl (fun m e => m.insert e.1 e.2) empty

omit [Ord κ] in
/-- A look-up after an erasure. -/
theorem get?_erase (m : Keyed κ α) (k k' : κ) :
    (m.erase k).get? k' = if k' = k then none else m.get? k' := by
  obtain ⟨entries⟩ := m
  simp only [erase, get?, without]
  induction entries with
  | nil => simp [lookup]
  | cons e rest ih =>
    obtain ⟨ke, ve⟩ := e
    by_cases h : ke = k
    · subst h
      by_cases hk : k' = ke
      · subst hk; simpa using ih
      · simpa [List.filter_cons, lookup, hk] using ih
    · by_cases hk : k' = ke
      · subst hk; simp [lookup, h]
      · simpa [List.filter_cons, lookup, h, hk] using ih

/-- A look-up after a write. -/
theorem get?_insert (m : Keyed κ α) (k k' : κ) (v : α) :
    (m.insert k v).get? k' = if k' = k then some v else m.get? k' := by
  obtain ⟨entries⟩ := m
  simp only [insert, get?]
  induction entries with
  | nil => simp [place, lookup]
  | cons e rest ih =>
    obtain ⟨ke, ve⟩ := e
    unfold place
    split
    · next h => subst h; simp only [lookup]; split <;> rfl
    · next h =>
      split
      · simp only [lookup]
      · simp only [lookup, ih]
        by_cases hk : k' = ke
        · subst hk
          simp [Ne.symm h]
        · simp [hk]

end Keyed

end SourceTables

import SourceTables.Fingerprint

/-!
# `SourceTables.BatchCache`: decoded batches within a budget

The cache keeps payloads by the fingerprint of the artifact that they were read from, so that a
rewritten artifact never gets an old payload. The sizes of all payloads stay within the budget: the
least recently used ones give way. A payload above the budget is not kept, and a budget of zero keeps
nothing.
-/

set_option autoImplicit false

namespace SourceTables

/-- A payload with its size. -/
structure CacheEntry (α : Type) where
  fingerprint : Fingerprint
  payload : α
  size : Nat

/-- What a cache counts. -/
structure CacheCounts where
  hits : Nat := 0
  misses : Nat := 0
  inserts : Nat := 0
  evictions : Nat := 0
  invalidations : Nat := 0
deriving DecidableEq, Inhabited

/-- Payloads by fingerprint, the most recently used one first. -/
structure BatchCache (α : Type) where
  maxBytes : Nat
  entries : List (CacheEntry α) := []
  counts : CacheCounts := {}
deriving Inhabited

namespace BatchCache

variable {α : Type}

/-- Whether anything is kept at all. -/
def isEnabled (c : BatchCache α) : Bool := c.maxBytes > 0

/-- The size of all payloads. -/
def bytesOf (entries : List (CacheEntry α)) : Nat := entries.foldr (fun e bytes => e.size + bytes) 0

/-- The size of all payloads in a cache. -/
def bytes (c : BatchCache α) : Nat := bytesOf c.entries

/-- The entry of a fingerprint. -/
def held? (c : BatchCache α) (f : Fingerprint) : Option (CacheEntry α) :=
  c.entries.find? (fun e => e.fingerprint.same f)

/-- The entries without that of a fingerprint. -/
def without (c : BatchCache α) (f : Fingerprint) : List (CacheEntry α) :=
  c.entries.filter (fun e => !e.fingerprint.same f)

/-- Looks a payload up, which counts as a use. -/
def get (c : BatchCache α) (f : Fingerprint) : Option α × BatchCache α :=
  match c.held? f with
  | some e =>
    (some e.payload,
      -- The entry moves to the front: it is the last to give way.
      { c with entries := e :: c.without f, counts := { c.counts with hits := c.counts.hits + 1 } })
  | none => (none, { c with counts := { c.counts with misses := c.counts.misses + 1 } })

/-- The longest leading part of some entries whose sizes fit into a budget. -/
def fitting (budget : Nat) : List (CacheEntry α) → List (CacheEntry α)
  | [] => []
  | e :: rest => if e.size ≤ budget then e :: fitting (budget - e.size) rest else []

/-- Keeps a payload. -/
def put (c : BatchCache α) (f : Fingerprint) (payload : α) (size : Nat) : BatchCache α :=
  -- The old payload is out of date even if the new one is not kept.
  if c.maxBytes = 0 ∨ c.maxBytes < size then { c with entries := c.without f }
  else
    let all := ⟨f, payload, size⟩ :: c.without f
    let kept := fitting c.maxBytes all
    { c with
      entries := kept
      counts := { c.counts with
        inserts := c.counts.inserts + 1
        evictions := c.counts.evictions + (all.length - kept.length) } }

/-- Drops a payload; whether there was one. -/
def invalidate (c : BatchCache α) (f : Fingerprint) : Bool × BatchCache α :=
  match c.held? f with
  | some _ =>
    (true, { c with
      entries := c.without f
      counts := { c.counts with invalidations := c.counts.invalidations + 1 } })
  | none => (false, c)

/-- Drops all payloads. -/
def clear (c : BatchCache α) : BatchCache α := { c with entries := [] }

end BatchCache

end SourceTables

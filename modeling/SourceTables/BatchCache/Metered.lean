import SourceTables.BatchCache

/-!
# `SourceTables.BatchCache.Metered`: a cache that counts its bytes

The sizes of all entries are not added up whenever they are needed. A count is kept beside the entries,
and every operation brings it up to date: it adds what comes in, takes off what goes out, and entries
give way until the count is within the budget. The count stops at the ends of its range, and a cache
that has nothing left to give way starts to count from zero. Neither is meant to happen, so the meter
notes when it does.

Entries stand in the order of their last use, the least recent one first.
-/

set_option autoImplicit false

namespace SourceTables

/-- A count of bytes. -/
structure Meter where
  total : Nat := 0
  /-- How often the count was not what the operations make it. -/
  faults : Nat := 0
deriving DecidableEq, Inhabited

namespace Meter

/-- Counts more bytes, up to a limit. -/
def add (limit : Nat) (m : Meter) (size : Nat) : Meter :=
  if m.total + size ≤ limit then { m with total := m.total + size }
  else { total := limit, faults := m.faults + 1 }

/-- Counts fewer bytes, down to none. -/
def sub (m : Meter) (size : Nat) : Meter :=
  if size ≤ m.total then { m with total := m.total - size }
  else { total := 0, faults := m.faults + 1 }

/-- Counts from zero again, for want of entries that could give way. -/
def giveUp (m : Meter) : Meter := { total := 0, faults := m.faults + 1 }

/-- Counts from zero again, with no entries left. -/
def reset (m : Meter) : Meter := { m with total := 0 }

end Meter

/-- Payloads by fingerprint with a count of their sizes, the least recently used one first. -/
structure MeteredCache (α : Type) where
  maxBytes : Nat
  entries : List (CacheEntry α) := []
  meter : Meter := {}
  counts : CacheCounts := {}

/-- What can be asked of a cache. -/
inductive CacheCall (α : Type) where
  | get (fingerprint : Fingerprint)
  | put (fingerprint : Fingerprint) (payload : α) (size : Nat)
  | invalidate (fingerprint : Fingerprint)
  | clear

/-- What a cache answers. -/
inductive CacheAnswer (α : Type) where
  | found (payload : Option α)
  /-- The payload is kept, and these gave way to it. -/
  | kept (evicted : List (CacheEntry α))
  /-- The payload is not kept. -/
  | refused
  | invalidated (present : Bool)
  | cleared

/-- Entries that give way, those that stay, and the count of their sizes. -/
structure Eviction (α : Type) where
  evicted : List (CacheEntry α)
  kept : List (CacheEntry α)
  meter : Meter

/-- Lets entries give way until the count is within a budget. -/
def evict {α : Type} (maxBytes : Nat) : Meter → List (CacheEntry α) → Eviction α
  | m, [] => if m.total ≤ maxBytes then ⟨[], [], m⟩ else ⟨[], [], m.giveUp⟩
  | m, e :: rest =>
    if m.total ≤ maxBytes then ⟨[], e :: rest, m⟩
    else
      let later := evict maxBytes (m.sub e.size) rest
      { later with evicted := e :: later.evicted }

namespace MeteredCache

variable {α : Type}

/-- The entry of a fingerprint. -/
def held? (c : MeteredCache α) (f : Fingerprint) : Option (CacheEntry α) :=
  c.entries.find? (fun e => e.fingerprint.same f)

/-- The entries without that of a fingerprint. -/
def without (c : MeteredCache α) (f : Fingerprint) : List (CacheEntry α) :=
  c.entries.filter (fun e => !e.fingerprint.same f)

/-- Takes the entry of a fingerprint out, with its size. -/
def drop (c : MeteredCache α) (f : Fingerprint) : MeteredCache α :=
  match c.held? f with
  | some e => { c with entries := c.without f, meter := c.meter.sub e.size }
  | none => c

/-- Looks a payload up, which counts as a use. -/
def get (c : MeteredCache α) (f : Fingerprint) : Option α × MeteredCache α :=
  match c.held? f with
  | some e =>
    (some e.payload,
      { c with entries := c.without f ++ [e], counts := { c.counts with hits := c.counts.hits + 1 } })
  | none => (none, { c with counts := { c.counts with misses := c.counts.misses + 1 } })

/-- Keeps a payload; the entries that give way to it, unless it is not kept itself. -/
def put (limit : Nat) (c : MeteredCache α) (f : Fingerprint) (payload : α) (size : Nat) :
    Option (List (CacheEntry α)) × MeteredCache α :=
  let dropped := c.drop f
  if c.maxBytes = 0 ∨ c.maxBytes < size then (none, dropped)
  else
    -- The new entry is the most recent one, but it takes part when entries give way.
    let e := evict c.maxBytes (dropped.meter.add limit size) (dropped.entries ++ [⟨f, payload, size⟩])
    (some e.evicted, { c with
      entries := e.kept
      meter := e.meter
      counts := { c.counts with
        inserts := c.counts.inserts + 1
        evictions := c.counts.evictions + e.evicted.length } })

/-- Drops a payload; whether there was one. -/
def invalidate (c : MeteredCache α) (f : Fingerprint) : Bool × MeteredCache α :=
  match c.held? f with
  | some _ =>
    (true, { c.drop f with counts := { c.counts with invalidations := c.counts.invalidations + 1 } })
  | none => (false, c)

/-- Drops all payloads. -/
def clear (c : MeteredCache α) : MeteredCache α := { c with entries := [], meter := c.meter.reset }

/-- One call: its answer and the cache afterwards. -/
def call (limit : Nat) (c : MeteredCache α) : CacheCall α → CacheAnswer α × MeteredCache α
  | .get f => (.found (c.get f).1, (c.get f).2)
  | .put f payload size =>
    ((c.put limit f payload size).1.elim .refused .kept, (c.put limit f payload size).2)
  | .invalidate f => (.invalidated (c.invalidate f).1, (c.invalidate f).2)
  | .clear => (.cleared, c.clear)

/-- The cache after some calls, the last one first. -/
def after (maxBytes limit : Nat) : List (CacheCall α) → MeteredCache α
  | [] => { maxBytes }
  | call :: earlier => ((after maxBytes limit earlier).call limit call).2

/-- Some calls with their answers, the last one first. -/
def history (maxBytes limit : Nat) : List (CacheCall α) → List (CacheCall α × CacheAnswer α)
  | [] => []
  | call :: earlier =>
    (call, ((after maxBytes limit earlier).call limit call).1) :: history maxBytes limit earlier

end MeteredCache

/-- The running cache after some calls, the last one first. -/
def BatchCache.after {α : Type} (maxBytes : Nat) : List (CacheCall α) → BatchCache α
  | [] => { maxBytes }
  | .get f :: earlier => ((after maxBytes earlier).get f).2
  | .put f payload size :: earlier => (after maxBytes earlier).put f payload size
  | .invalidate f :: earlier => ((after maxBytes earlier).invalidate f).2
  | .clear :: earlier => (after maxBytes earlier).clear

end SourceTables

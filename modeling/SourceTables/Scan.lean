import SourceTables.Align
import SourceTables.BatchCache
import SourceTables.Partition.Predicate

/-!
# `SourceTables.Scan`: the rows of a snapshot

A scan goes through the artifacts of those partitions that a predicate keeps, in order, and hands out
their batches as batches of the table. It reads an artifact only when its rows are needed: nothing is
opened for a partition that is left out, or after the limit has been reached. Contents that were read
before come from the cache. The first failure ends a scan, after the rows before it.

A scan is a value that `Scan.step` takes one small step further; `next` and `drain` repeat steps up
to the next batch and to the end.

Main statement: `measure_step` (every step leaves less to do).
-/

set_option autoImplicit false

namespace SourceTables

open Artifact (Content)

/-- What is kept of artifacts, and which were opened, in order. -/
structure Reading where
  cache : BatchCache Content
  opened : List Path

/-- What an artifact's content counts for in the cache: a fixed part for each column of each batch
and the cells. -/
def Artifact.Content.size (c : Content) : Nat :=
  c.batches.foldr (fun rows bytes => c.schema.length * (96 + 8 * rows.length) + bytes) 0

namespace Reading

/-- The content of an artifact, from the cache or the artifact itself. -/
def load (read : Path → Except Error Content) (r : Reading) (a : ArtifactRef) :
    Except Error Content × Reading :=
  match r.cache.get a.fingerprint with
  | (some content, cache) => (.ok content, { r with cache })
  | (none, cache) =>
    -- An artifact that cannot be read counts as opened, too.
    let opened := r.opened ++ [a.path]
    match read a.path with
    | .ok content => (.ok content, ⟨cache.put a.fingerprint content content.size, opened⟩)
    | .error e => (.error e, ⟨cache, opened⟩)

end Reading

/-- What is left of a scan. -/
structure Scan where
  snapshot : Snapshot
  /-- The positions of the columns asked for; all if there is no list. -/
  projection : Option (List Nat)
  /-- How many rows may still be handed out; any number if there is no limit. -/
  remaining : Option Nat
  /-- The artifacts that were not loaded yet, with their partitions. -/
  artifacts : List (Partition × ArtifactRef)
  /-- The batches of loaded artifacts that were not handed out yet. -/
  pending : List (Partition × Batch)

namespace Snapshot

/-- The partitions that a predicate keeps. -/
def kept (s : Snapshot) (predicate : Predicate) : List PartitionEntry :=
  s.partitions.filter fun entry => predicate.keeps entry.partition

/-- The start of a scan. -/
def scan (s : Snapshot) (predicate : Predicate) (projection : Option (List Nat))
    (limit : Option Nat) : Scan :=
  { snapshot := s, projection, remaining := limit, pending := []
    artifacts := (s.kept predicate).flatMap fun entry =>
      entry.artifacts.map fun a => (entry.partition, a) }

end Snapshot

namespace Scan

/-- A scan that has come to its end. -/
def finished (s : Scan) : Scan := { s with artifacts := [], pending := [] }

/-- The outcome of a step. -/
inductive Step where
  | done
  | batch (batch : Batch) (rest : Scan)
  | failed (cause : Error)
  /-- An artifact was loaded. -/
  | loaded (rest : Scan)

/-- A batch as it is handed out: aligned, projected, and cut at the limit. -/
def shape (s : Scan) (p : Partition) (stored : Batch) : Except ColumnError Batch := do
  let aligned ← s.snapshot.batch p stored
  let projected ← aligned.project s.projection
  return match s.remaining with
    | some count => projected.take count
    | none => projected

/-- The batches of an artifact, with their schema. -/
def batchesOf (p : Partition) (c : Content) : List (Partition × Batch) :=
  c.batches.map fun rows => (p, ⟨c.schema, rows⟩)

/-- One step: the next batch is handed out, or the next artifact is loaded. -/
def step (read : Path → Except Error Content) (s : Scan) (r : Reading) : Step × Reading :=
  if s.remaining = some 0 then (.done, r)
  else match s.pending, s.artifacts with
    -- What is loaded goes out before the next artifact is opened.
    | (p, stored) :: pending, _ => match s.shape p stored with
      | .error e => (.failed (.column e), r)
      | .ok batch =>
        -- The batch is cut already, so the difference never falls below zero.
        (.batch batch { s with pending, remaining := s.remaining.map (· - batch.rows.length) }, r)
    | [], (p, a) :: artifacts => match r.load read a with
      | (.error e, r) => (.failed e, r)
      | (.ok content, r) => (.loaded { s with artifacts, pending := batchesOf p content }, r)
    | [], [] => (.done, r)

/-- What is left of a scan after a step. -/
def Step.rest? : Step → Option Scan
  | .batch _ rest | .loaded rest => some rest
  | .done | .failed _ => none

/-- Every step leaves fewer artifacts, or as many with fewer batches. -/
theorem measure_step (read : Path → Except Error Content) (s rest : Scan) (r : Reading)
    (h : (s.step read r).1.rest? = some rest) :
    Prod.Lex (· < ·) (· < ·) (rest.artifacts.length, rest.pending.length)
      (s.artifacts.length, s.pending.length) := by
  unfold step at h
  split at h
  · simp [Step.rest?] at h
  · split at h
    · next hp =>
      split at h
      · simp [Step.rest?] at h
      · simp only [Step.rest?, Option.some.injEq] at h
        subst h
        simp only [hp, List.length_cons]
        exact .right _ (Nat.lt_succ_self _)
    · next ha =>
      split at h
      · simp [Step.rest?] at h
      · simp only [Step.rest?, Option.some.injEq] at h
        subst h
        simp only [ha, List.length_cons]
        exact .left _ _ (Nat.lt_succ_self _)
    · simp [Step.rest?] at h

/-- Steps up to the next batch or the end, and what is left then. -/
def next (read : Path → Except Error Content) (s : Scan) (r : Reading) :
    Option (Except Error Batch) × Scan × Reading :=
  match _h : s.step read r with
  | (.done, r) => (none, s.finished, r)
  | (.failed e, r) => (some (.error e), s.finished, r)
  | (.batch batch rest, r) => (some (.ok batch), rest, r)
  | (.loaded rest, r) => next read rest r
termination_by (s.artifacts.length, s.pending.length)
decreasing_by exact measure_step read s rest _ (by rw [_h]; rfl)

/-- The batches of a scan, and the failure that ended it, if one did. -/
structure Drained where
  batches : List Batch
  failure : Option Error

/-- Steps up to the end. -/
def drain (read : Path → Except Error Content) (s : Scan) (r : Reading) : Drained × Reading :=
  match _h : s.step read r with
  | (.done, r) => (⟨[], none⟩, r)
  | (.failed e, r) => (⟨[], some e⟩, r)
  | (.batch batch rest, r) =>
    let (drained, r) := drain read rest r
    (⟨batch :: drained.batches, drained.failure⟩, r)
  | (.loaded rest, r) => drain read rest r
termination_by (s.artifacts.length, s.pending.length)
decreasing_by
  · exact measure_step read s rest _ (by rw [_h]; rfl)
  · exact measure_step read s rest _ (by rw [_h]; rfl)

end Scan

/-- All rows of a drained scan. -/
def Scan.Drained.rows (d : Scan.Drained) : List Row := d.batches.flatMap Batch.rows

end SourceTables

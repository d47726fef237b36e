import SourceTables.Proofs.Scan

/-!
# `SourceTables.Proofs.Scan.Limited`: scans are the plain reading

A scan skips artifacts, stops early and takes contents from a cache. None of this shows in its rows: they
are the rows that reading the artifacts of the kept partitions one after another gives, up to the limit.
What shows is which artifacts were opened, and that no more than needed were.

This is so for a cache that holds what its artifacts read as, and a scan leaves such a cache behind. A
cache goes by fingerprints, so that artifacts with one fingerprint must read alike; they do when
fingerprints are taken at the paths of their artifacts (`Snapshot.alike_of_paths`).

The theorems:

* `Snapshot.drain_scan`: the rows of a scan, how it ends, what it opens and what it keeps.
* `Scan.drain_eq_next`, `Scan.next_ended`: the same batch by batch, with nothing after the end.
-/

set_option autoImplicit false

namespace SourceTables

open Artifact (Content)

namespace Scan

/-! ### Batch by batch -/

variable (read : Path → Except Error Content) (s : Scan) (r : Reading)

/-- Steps are repeated until there is a batch, a failure or the end. -/
theorem next_eq : s.next read r = match s.step read r with
    | (.done, r) => (none, s.finished, r)
    | (.failed e, r) => (some (.error e), s.finished, r)
    | (.batch batch rest, r) => (some (.ok batch), rest, r)
    | (.loaded rest, r) => rest.next read r := by
  rw [next]
  split
  all_goals
    rename_i h
    rw [h]

/-- To drain a scan is to take batches until there is a failure or none is left. -/
theorem drain_eq_next : s.drain read r = match s.next read r with
    | (none, _, r) => (⟨[], none⟩, r)
    | (some (.error e), _, r) => (⟨[], some e⟩, r)
    | (some (.ok batch), rest, r) =>
      (⟨batch :: (rest.drain read r).1.batches, (rest.drain read r).1.failure⟩, (rest.drain read r).2) := by
  fun_induction next read s r with
  | case1 s r r' h => rw [drain_eq, h]
  | case2 s r e r' h => rw [drain_eq, h]
  | case3 s r batch rest r' h => rw [drain_eq, h]
  | case4 s r rest r' h ih =>
    rw [drain_eq, h]
    exact ih

/-- After a failure or the end there is nothing more. -/
theorem next_ended {out : Option (Except Error Batch)} {rest : Scan} {r' : Reading}
    (h : s.next read r = (out, rest, r')) (hended : ∀ b, out ≠ some (.ok b)) (r'' : Reading) :
    rest.next read r'' = (none, rest, r'') := by
  have hfinished (s : Scan) : s.finished.next read r'' = (none, s.finished, r'') := by
    rw [next_eq, step_nil rfl rfl]
    rfl
  fun_induction next read s r with
  | case1 s r r' hstep => cases h; exact hfinished s
  | case2 s r e r' hstep => cases h; exact hfinished s
  | case3 s r batch rest r' hstep =>
    cases h
    exact absurd rfl (hended batch)
  | case4 s r rest r' hstep ih => exact ih h

end Scan

namespace Snapshot

/-! ### Whole scans -/

variable {s : Snapshot} {read : Path → Except Error Content}

/-- The artifacts of the partitions that a predicate keeps, in order. -/
def keptArtifacts (s : Snapshot) (predicate : Predicate) : List (Partition × ArtifactRef) :=
  (s.kept predicate).flatMap fun entry => entry.artifacts.map fun a => (entry.partition, a)

/-- Whether a content is what the artifacts with a fingerprint read as. -/
def ReadsAs (s : Snapshot) (read : Path → Except Error Content) (f : Fingerprint) (c : Content) : Prop :=
  ∀ a ∈ s.artifacts, f.same a.fingerprint = true → read a.path = .ok c

/-- Whether artifacts with one fingerprint read alike. -/
def Alike (s : Snapshot) (read : Path → Except Error Content) : Prop :=
  ∀ a ∈ s.artifacts, ∀ c, read a.path = .ok c → s.ReadsAs read a.fingerprint c

/-- They do when fingerprints are taken at the paths of their artifacts, and paths are read by their
components. -/
theorem alike_of_paths (hpaths : ∀ a ∈ s.artifacts, a.fingerprint.path.same a.path = true)
    (hread : ∀ p q c, p.same q = true → read p = .ok c → read q = .ok c) : s.Alike read := by
  intro a ha c hc b hb hsame
  refine hread a.path b.path c ?_ hc
  have ha := Path.same_iff.mp (hpaths a ha)
  have hb := Path.same_iff.mp (hpaths b hb)
  rw [Path.same_iff, ← ha, ← hb]
  exact (Fingerprint.same_iff.mp hsame).1

theorem respects_readsAs (s : Snapshot) (read : Path → Except Error Content) :
    Fingerprint.Respects (s.ReadsAs read) :=
  fun _ _ _ hsame h a ha hga => h a ha (Fingerprint.same_trans hsame hga)

theorem mem_artifacts_of_kept {predicate : Predicate} {a : Partition × ArtifactRef}
    (h : a ∈ s.keptArtifacts predicate) : a.2 ∈ s.artifacts := by
  obtain ⟨entry, hentry, ha⟩ := List.mem_flatMap.mp h
  obtain ⟨ref, href, rfl⟩ := List.mem_map.mp ha
  exact List.mem_flatMap.mpr ⟨entry, List.mem_of_mem_filter hentry, href⟩

/-- An artifact comes to what reading it plainly gives, from the cache as well. -/
theorem Alike.yields (h : s.Alike read) (projection : Option (List Nat)) {a : Partition × ArtifactRef}
    (ha : a.2 ∈ s.artifacts) :
    Scan.Yields (s.ReadsAs read) read s projection a (Scan.artifactRows s projection read a) where
  held c hc := by
    rw [Scan.artifactRows, hc a.2 ha (Fingerprint.same_refl _)]
    rfl
  stored c hc := h a.2 ha c hc
  unreadable e he := by
    rw [Scan.artifactRows, he]
    rfl

/-- The rows of a scan are the first ones that the artifacts of the kept partitions have, read plainly one
after another: as many as the limit allows, up to the first failure, which ends the scan unless the limit
comes before it. A scan opens no artifact of another partition, and none when the rows before it are
enough; and the cache holds what artifacts read as when it held such contents before. -/
theorem drain_scan (halike : s.Alike read) (predicate : Predicate) (projection : Option (List Nat))
    (limit : Option Nat) {r : Reading} (hcache : r.cache.Holds (s.ReadsAs read)) :
    let outcomes := (s.keptArtifacts predicate).map (Scan.artifactRows s projection read)
    let result := (s.scan predicate projection limit).drain read r
    (result.1.rows, result.1.failure) = Scan.limited limit (Scan.upToFailure outcomes) ∧
    (∃ (opened : List (Partition × ArtifactRef)) (count : Nat),
      result.2.opened = r.opened ++ opened.map (fun a => a.2.path) ∧
      opened.Sublist ((s.keptArtifacts predicate).take count) ∧
      ∀ j < count, Scan.Unfilled limit (outcomes.take j)) ∧
    result.2.cache.Holds (s.ReadsAs read) := by
  intro outcomes result
  have hyields : List.Forall₂ (Scan.Yields (s.ReadsAs read) read s projection) (s.keptArtifacts predicate)
      outcomes := by
    rw [List.forall₂_map_right_iff, List.forall₂_same]
    exact fun a ha => halike.yields projection (mem_artifacts_of_kept ha)
  obtain ⟨hrows, hcache', hopened⟩ := Scan.reads_drain (s := s.scan predicate projection limit)
    (s.respects_readsAs read) hcache hyields rfl
  exact ⟨hrows, hopened, hcache'⟩

/-- Of three days, the first is left out, the second comes from the cache, and the limit is met before the
artifact of the third that cannot be read. -/
theorem drain_scan_days :
    let day : Nat → Partition := fun n => ⟨[("day", .integer n)], ⟨""⟩, []⟩
    let artifact : String → ArtifactRef := fun path => ⟨"t", ⟨path⟩, ⟨⟨path⟩, 1, 1, none⟩⟩
    let content : Content := ⟨[⟨"v", .int64, true⟩], [[[.int 5]], [], [[.int 6], [.int 7]]]⟩
    let read : Path → Except Error Content := fun p =>
      if p = ⟨"b"⟩ ∨ p = ⟨"c"⟩ then .ok content else .error .cancelled
    let s := build [⟨"day", .integer⟩] [⟨day 1, [artifact "a"]⟩, ⟨day 2, [artifact "b"]⟩,
      ⟨day 3, [artifact "c", artifact "d"]⟩] Keyed.empty content.schema 0
    let held : Reading := ⟨{ maxBytes := 1000, entries := [⟨⟨⟨"b"⟩, 1, 1, none⟩, content, 1⟩] }, []⟩
    let result := (s.scan (.compare .ge "day" (.integer 2)) (some [1, 0]) (some 5)).drain read held
    result.1.rows = [[.int 2, .int 5], [.int 2, .int 6], [.int 2, .int 7], [.int 3, .int 5], [.int 3, .int 6]] ∧
      result.1.failure = none ∧ result.2.cache.Holds (s.ReadsAs read) := by
  intro day artifact content read s held result
  -- No two of these artifacts have one fingerprint.
  have hone : ∀ a ∈ s.artifacts, ∀ b ∈ s.artifacts, a.fingerprint.same b.fingerprint = true → a = b := by
    decide +revert
  have halike : s.Alike read := by
    intro a ha c hc b hb hsame
    rwa [← hone a ha b hb hsame]
  have hcache : held.cache.Holds (s.ReadsAs read) := by
    intro e he
    obtain rfl := List.mem_singleton.mp he
    exact halike (artifact "b") (.tail _ (.head _)) content rfl
  obtain ⟨hrows, -, hafter⟩ := drain_scan halike (.compare .ge "day" (.integer 2)) (some [1, 0]) (some 5) hcache
  obtain ⟨hrows, hfailure⟩ := Prod.ext_iff.mp hrows
  exact ⟨hrows, hfailure, hafter⟩

end Snapshot

end SourceTables

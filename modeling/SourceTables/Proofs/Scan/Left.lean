import SourceTables.Proofs.Scan

/-!
# `SourceTables.Proofs.Scan.Left`: what a scan has left

A scan takes small steps, and anything may happen between two of them. If it is settled what rows each
artifact comes to, then so is what a scan has left to hand out: each step hands out the first part of it
and leaves the rest.

The theorems:

* `step_cases`: what a step does that leaves something.
* `left_step`, `left_done`: each step hands out the first rows of what is left, up to the end.
* `holds_step`: a sound cache stays sound.
-/

set_option autoImplicit false

namespace SourceTables

open Artifact (Content)

/-- How many rows are read in one batch does not matter for the rows of an artifact. -/
theorem Scan.contentRows_kept (s : Snapshot) (projection : Option (List Nat)) (p : Partition)
    (engine : Engine) (n m : Nat) (c : Content) :
    contentRows s projection p (c.kept engine n) = contentRows s projection p (c.kept engine m) := by
  have hnil (size : Nat) : chunks size c.rows = [] ↔ c.rows = [] := by
    cases c.rows <;> simp [chunks]
  cases engine with
  | arrow => rfl
  | parquet =>
    simp only [contentRows, Content.kept, Content.rows]
    split
    · rfl
    · simp only [flatten_chunks]
      change (if chunks n c.rows = [] then _ else _) = if chunks m c.rows = [] then _ else _
      simp only [hnil]

namespace Scan

variable {read : Path → Except Error Content} {s : Scan} {r : Reading}
  {outcome : Partition × ArtifactRef → Except Error (List Row)}

/-- What a scan has left to hand out, and how it ends, if artifacts come to some outcomes. -/
def left (outcome : Partition × ArtifactRef → Except Error (List Row)) (s : Scan) :
    List Row × Option Error :=
  limited s.remaining (upToFailure
    ((s.pending.map fun b => batchRows s.snapshot s.projection b.1 b.2) ++ s.artifacts.map outcome))

/-- The rows that a step hands out. -/
def Step.rows : Step → List Row
  | .batch b _ => b.rows
  | .done | .failed _ | .loaded _ => []

/-- At its end a scan has nothing left. -/
theorem left_done {r' : Reading} (hstep : s.step read r = (.done, r')) : s.left outcome = ([], none) := by
  obtain ⟨snapshot, projection, remaining, artifacts, pending⟩ := s
  by_cases hfull : remaining = some 0
  · subst hfull
    exact limited_zero _
  cases pending with
  | cons b pending =>
    have hpending := step_pending read r (s := ⟨snapshot, projection, remaining, artifacts, b :: pending⟩)
      hfull rfl
    split at hpending
    · obtain ⟨out, -, hpending⟩ := hpending
      cases hpending.symm.trans hstep
    · cases hpending.symm.trans hstep
  | nil =>
    cases artifacts with
    | nil => exact limited_none _
    | cons a artifacts =>
      rw [step_load hfull rfl rfl] at hstep
      split at hstep <;> cases hstep

/-- A batch that is handed out is aligned and projected, and its rows are the first ones of that. -/
theorem of_shape {p : Partition} {stored b : Batch} (h : s.shape p stored = .ok b) :
    ∃ aligned whole, s.snapshot.batch p stored = .ok aligned ∧ aligned.project s.projection = .ok whole ∧
      b.schema = whole.schema ∧ b.rows = takeUpTo s.remaining whole.rows := by
  unfold shape at h
  obtain ⟨aligned, haligned, h⟩ := Outcome.bind_eq_ok.mp h
  obtain ⟨whole, hwhole, h⟩ := Outcome.bind_eq_ok.mp h
  refine ⟨aligned, whole, haligned, hwhole, ?_⟩
  cases hremaining : s.remaining with
  | none =>
    rw [hremaining] at h
    cases h
    exact ⟨rfl, rfl⟩
  | some count =>
    rw [hremaining] at h
    cases h
    exact ⟨rfl, rfl⟩

/-- A step that leaves something hands out the first batch that is pending, or loads the next artifact. -/
theorem step_cases {step : Step} {r' : Reading} {rest : Scan} (hstep : s.step read r = (step, r'))
    (hrest : step.rest? = some rest) :
    (∃ p stored pending b, step = .batch b rest ∧ s.pending = (p, stored) :: pending ∧
      s.shape p stored = .ok b ∧
      rest = { s with pending, remaining := s.remaining.map (· - b.rows.length) }) ∨
    ∃ p a artifacts c, step = .loaded rest ∧ s.pending = [] ∧ s.artifacts = (p, a) :: artifacts ∧
      r.load read a = (.ok c, r') ∧ rest = { s with artifacts, pending := batchesOf p c } := by
  unfold Scan.step at hstep
  split at hstep
  · cases hstep
    cases hrest
  · split at hstep
    · next p stored pending hpending =>
      split at hstep
      · cases hstep
        cases hrest
      · next b hshape =>
        cases hstep
        cases hrest
        exact .inl ⟨p, stored, pending, b, rfl, hpending, hshape, rfl⟩
    · next p a artifacts hpending hartifacts =>
      split at hstep
      · cases hstep
        cases hrest
      · next c after hload =>
        cases hstep
        cases hrest
        exact .inr ⟨p, a, artifacts, c, rfl, hpending, hartifacts, hload, rfl⟩
    · cases hstep
      cases hrest

/-- What a scan has left to hand out, and how it ends, if the artifacts that it has not loaded come to
some outcomes. -/
def leftWith (outcomes : List (Except Error (List Row))) (s : Scan) : List Row × Option Error :=
  limited s.remaining
    (upToFailure ((s.pending.map fun b => batchRows s.snapshot s.projection b.1 b.2) ++ outcomes))

/-- A batch takes its rows from what is left. -/
theorem leftWith_batch (outcomes : List (Except Error (List Row))) {p : Partition} {stored b : Batch}
    {pending : List (Partition × Batch)} (hpending : s.pending = (p, stored) :: pending)
    (hshape : s.shape p stored = .ok b) :
    let rest : Scan := { s with pending, remaining := s.remaining.map (· - b.rows.length) }
    s.leftWith outcomes = (b.rows ++ (rest.leftWith outcomes).1, (rest.leftWith outcomes).2) := by
  intro rest
  obtain ⟨aligned, whole, haligned, hwhole, -, hb⟩ := of_shape hshape
  have hrows : batchRows s.snapshot s.projection p stored = .ok whole.rows := by
    unfold batchRows
    rw [Outcome.bind_eq_ok.mpr ⟨aligned, haligned, hwhole⟩]
  unfold leftWith
  rw [hpending, List.map_cons, List.cons_append, hrows, upToFailure, limited_append, ← hb]

/-- An artifact that is loaded leaves what its content comes to. -/
theorem leftWith_load (outcomes : List (Except Error (List Row))) (hpending : s.pending = [])
    (p : Partition) (c : Content) (artifacts : List (Partition × ArtifactRef)) :
    s.leftWith (contentRows s.snapshot s.projection p c :: outcomes)
      = leftWith outcomes { s with artifacts, pending := batchesOf p c } := by
  unfold leftWith
  rw [hpending, List.map_nil, List.nil_append, ← upToFailure_batches]
  unfold batchesOf
  rw [List.map_map]
  rfl

/-- A step hands out the first rows of what is left, if the artifact that it loads comes to its outcome. -/
theorem left_step {step : Step} {r' : Reading} {rest : Scan} (hstep : s.step read r = (step, r'))
    (hrest : step.rest? = some rest)
    (hload : s.pending = [] → ∀ a ∈ s.artifacts.head?, ∀ c, r.load read a.2 = (.ok c, r') →
      contentRows s.snapshot s.projection a.1 c = outcome a) :
    rest.snapshot = s.snapshot ∧ rest.projection = s.projection ∧ rest.artifacts ⊆ s.artifacts ∧
      s.left outcome = (step.rows ++ (rest.left outcome).1, (rest.left outcome).2) := by
  obtain ⟨p, stored, pending, b, rfl, hpending, hshape, rfl⟩
    | ⟨p, a, artifacts, c, rfl, hpending, hartifacts, hloaded, rfl⟩ := step_cases hstep hrest
  · exact ⟨rfl, rfl, List.Subset.refl _, leftWith_batch (s.artifacts.map outcome) hpending hshape⟩
  · refine ⟨rfl, rfl, ?_, ?_⟩
    · rw [hartifacts]
      exact List.subset_cons_self _ _
    · have hrows := hload hpending (p, a) (by rw [hartifacts]; rfl) c hloaded
      show s.leftWith (s.artifacts.map outcome) = _
      rw [hartifacts, List.map_cons, ← hrows]
      exact leftWith_load _ hpending p c artifacts

/-- A step keeps a cache sound if what it opens goes with its fingerprint. -/
theorem holds_step {R : Fingerprint → Content → Prop} {step : Step} {r' : Reading}
    (hR : Fingerprint.Respects R) (hcache : r.cache.Holds R)
    (hread : s.pending = [] → ∀ a ∈ s.artifacts.head?, (r.cache.get a.2.fingerprint).1 = none →
      ∀ c, read a.2.path = .ok c → R a.2.fingerprint c)
    (hstep : s.step read r = (step, r')) : r'.cache.Holds R := by
  unfold Scan.step at hstep
  split at hstep
  · cases hstep
    exact hcache
  · split at hstep
    · split at hstep <;>
      · cases hstep
        exact hcache
    · next hpending hartifacts =>
      have hread := hread hpending _ (by rw [hartifacts]; rfl)
      split at hstep
      · next hload =>
        cases hstep
        exact (Reading.of_load hR hcache hread hload).1
      · next hload =>
        cases hstep
        exact (Reading.of_load hR hcache hread hload).1
    · cases hstep
      exact hcache

end Scan

end SourceTables

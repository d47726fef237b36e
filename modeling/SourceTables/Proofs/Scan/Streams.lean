import SourceTables.Proofs.Align
import SourceTables.Proofs.Scan.Left
import SourceTables.Query.Plan

/-!
# `SourceTables.Proofs.Scan.Streams`: scans while anything happens beside them

A scan of a plan is read batch by batch, and between two steps files and caches may change in any way: each
step may find other contents than the one before it. So what a scan hands out is told by what it has loaded.
The history of a scan is the list of its loads with the batches that it has handed out, and every step adds
to one of the two.

The invariant is an equation with the outcomes of the artifacts that are still to come left open
(`Streams.leftWith_eq`): what the loads so far leave of these is what the scan has left.

The theorems:

* `Streams.exists_next`, `Streams.exists_drain`: every step goes on with a history, and draining is one.
* `Streams.frame`: a scan stays with its snapshot, and loads its artifacts in turn.
* `Streams.schema_eq`, `Streams.admits`: every batch has the columns asked for, with cells of their types.
* `Streams.rows_isPrefix`, `Streams.rows_eq`: the rows are the first ones of the loads, and all of them at the
  end of a scan without a limit.
-/

set_option autoImplicit false

namespace SourceTables

open Artifact (Content)

/-! ### Columns that are asked for -/

/-- The columns at some positions, or all of them. -/
def Schema.columnsAt (s : Schema) : Option (List Nat) → Schema
  | none => s
  | some positions => positions.filterMap (s[·]?)

/-- The cells at some positions, or all of them. -/
def Row.cellsAt (r : Row) : Option (List Nat) → Row
  | none => r
  | some positions => r.project positions

/-- Whether there is a column at each position. -/
def Schema.Has (s : Schema) (projection : Option (List Nat)) : Prop :=
  ∀ positions, projection = some positions → ∀ i ∈ positions, i < s.length

theorem Schema.has_some {s : Schema} {positions : List Nat} :
    s.Has (some positions) ↔ ∀ i ∈ positions, i < s.length :=
  ⟨fun h => h positions rfl, fun h _ heq => Option.some.inj heq ▸ h⟩

/-- Columns are found at some positions just when there is one at each of them. -/
theorem Schema.project_eq_ok {s schema : Schema} {positions : List Nat} :
    s.project positions = .ok schema ↔
      s.Has (some positions) ∧ schema = s.columnsAt (some positions) := by
  rw [has_some]
  show _ ↔ _ ∧ schema = positions.filterMap (s[·]?)
  induction positions generalizing schema with
  | nil => exact ⟨fun h => ⟨nofun, (Except.ok.inj h).symm⟩, fun h => by rw [h.2]; rfl⟩
  | cons i rest ih =>
    unfold project at ih ⊢
    rw [List.mapM_cons, Outcome.bind_eq_ok, List.forall_mem_cons]
    cases hfirst : s[i]? with
    | none =>
      have hi : ¬i < s.length := by simpa using hfirst
      simp [hi]
    | some f =>
      have hi : i < s.length := (List.getElem?_eq_some_iff.mp hfirst).1
      rw [List.filterMap_cons_some hfirst]
      constructor
      · rintro ⟨_, hf, h⟩
        obtain ⟨fs, hfs, h⟩ := Outcome.bind_eq_ok.mp h
        cases hf
        cases h
        obtain ⟨hrest, rfl⟩ := ih.mp hfs
        exact ⟨⟨hi, hrest⟩, rfl⟩
      · rintro ⟨⟨-, hrest⟩, rfl⟩
        exact ⟨f, rfl, Outcome.bind_eq_ok.mpr ⟨_, ih.mpr ⟨hrest, rfl⟩, rfl⟩⟩

/-- So it is when some columns of a snapshot are asked for, or all of them. -/
theorem Snapshot.projected_eq_ok {s : Snapshot} {projection : Option (List Nat)} {schema : Schema} :
    s.projected projection = .ok schema ↔
      s.schema.Has projection ∧ schema = s.schema.columnsAt projection := by
  cases projection with
  | none => exact ⟨fun h => ⟨nofun, (Except.ok.inj h).symm⟩, fun h => by rw [h.2]; rfl⟩
  | some positions => exact Schema.project_eq_ok

/-- So it is with a batch, whose rows have the cells asked for then. -/
theorem Batch.project_eq_ok {b b' : Batch} {projection : Option (List Nat)} :
    b.project projection = .ok b' ↔ b.schema.Has projection ∧
      b' = ⟨b.schema.columnsAt projection, b.rows.map (Row.cellsAt · projection)⟩ := by
  cases projection with
  | none =>
    have hrows : b.rows.map (Row.cellsAt · none) = b.rows := List.map_id' _
    rw [hrows]
    exact ⟨fun h => ⟨nofun, (Except.ok.inj h).symm⟩, fun h => by rw [h.2]; rfl⟩
  | some positions =>
    refine Outcome.map_eq_ok.trans ?_
    simp only [Schema.project_eq_ok]
    constructor
    · rintro ⟨_, ⟨hhas, rfl⟩, rfl⟩
      exact ⟨hhas, rfl⟩
    · rintro ⟨hhas, rfl⟩
      exact ⟨_, ⟨hhas, rfl⟩, rfl⟩

/-- Cells that are asked for are of the types of their columns. -/
theorem Schema.admits_cellsAt {s : Schema} {r : Row} (hrow : s.admits r = true)
    {projection : Option (List Nat)} (hhas : s.Has projection) :
    (s.columnsAt projection).admits (r.cellsAt projection) = true := by
  cases projection with
  | none => exact hrow
  | some positions =>
    rw [Schema.admits_iff] at hrow ⊢
    have hpositions := has_some.mp hhas
    clear hhas
    induction positions with
    | nil => exact .nil
    | cons i rest ih =>
      obtain ⟨hi, hrest⟩ := List.forall_mem_cons.mp hpositions
      have hi' : i < r.length := hrow.length_eq ▸ hi
      have hcell := hrow.get hi hi'
      show List.Forall₂ _ (List.filterMap _ (i :: rest)) (Row.project (i :: rest) r)
      rw [List.filterMap_cons_some (List.getElem?_eq_getElem hi)]
      refine .cons ?_ (ih hrest)
      show Cell.hasType _ (r[i]?.getD .null) = true
      rw [List.getElem?_eq_getElem hi']
      exact hcell

namespace Scan

/-- An artifact that was loaded, with the content that it had then. -/
structure Load where
  partition : Partition
  artifact : ArtifactRef
  content : Content

/-- The artifact of a load with its partition. -/
def Load.source (l : Load) : Partition × ArtifactRef := (l.partition, l.artifact)

/-- What the loaded content comes to in a table. -/
def Load.outcome (s : Snapshot) (projection : Option (List Nat)) (l : Load) : Except Error (List Row) :=
  contentRows s projection l.partition l.content

/-- The rows of the loaded content in a table, with the columns asked for. -/
def Load.rows (s : Snapshot) (projection : Option (List Nat)) (l : Load) : List Row :=
  l.content.rows.map fun r =>
    (Plain.row s.dataSchema s.keys l.partition l.content.schema r).cellsAt projection

/-- The batches that a step hands out. -/
def Step.batches : Step → List Batch
  | .batch b _ => [b]
  | .done | .failed _ | .loaded _ => []

/-- What a scan has loaded and handed out since its start, and what is left of it, when each step may find
other contents. -/
inductive Streams (start : Scan) : List Load → List Batch → Scan → Prop
  | start : Streams start [] [] start
  | batch {loads : List Load} {out : List Batch} {s rest : Scan} {b : Batch}
    {read : Path → Except Error Content} {r r' : Reading} (h : Streams start loads out s)
    (hstep : s.step read r = (.batch b rest, r')) : Streams start loads (out ++ [b]) rest
  | load {loads : List Load} {out : List Batch} {s rest : Scan} {l : Load}
    {read : Path → Except Error Content} {r r' : Reading} (h : Streams start loads out s)
    (hstep : s.step read r = (.loaded rest, r')) (hnext : s.artifacts.head? = some l.source)
    (hload : r.load read l.artifact = (.ok l.content, r')) : Streams start (loads ++ [l]) out rest

/-- Whether a scan is at its end. -/
def Ended (s : Scan) : Prop :=
  ∃ (read : Path → Except Error Content) (r r' : Reading), s.step read r = (.done, r')

variable {read : Path → Except Error Content} {start s : Scan} {r : Reading} {loads : List Load}
  {out : List Batch}

/-! ### Every scan has a history -/

/-- Every step that leaves something goes on with the history. -/
theorem Streams.exists_next (h : start.Streams loads out s) {step : Step} {r' : Reading} {rest : Scan}
    (hstep : s.step read r = (step, r')) (hrest : step.rest? = some rest) :
    ∃ new, start.Streams (loads ++ new) (out ++ step.batches) rest := by
  obtain ⟨p, stored, pending, b, rfl, -⟩ | ⟨p, a, artifacts, c, rfl, -, hartifacts, hload, -⟩ :=
    step_cases hstep hrest
  · refine ⟨[], ?_⟩
    rw [List.append_nil]
    exact h.batch hstep
  · refine ⟨[⟨p, a, c⟩], ?_⟩
    show start.Streams _ (out ++ []) rest
    rw [List.append_nil]
    exact h.load hstep (by rw [hartifacts]; rfl) hload

/-- Draining a scan is one way to go on, up to the end unless there is a failure. -/
theorem Streams.exists_drain (h : start.Streams loads out s) (read : Path → Except Error Content)
    (r : Reading) :
    ∃ new last, start.Streams (loads ++ new) (out ++ (s.drain read r).1.batches) last ∧
      ((s.drain read r).1.failure = none → last.Ended) := by
  induction s, r using Scan.drain.induct read generalizing loads out with
  | case1 s r r' hstep =>
    rw [drain_eq, hstep]
    refine ⟨[], s, ?_, fun _ => ⟨read, r, r', hstep⟩⟩
    rw [List.append_nil, List.append_nil]
    exact h
  | case2 s r e r' hstep =>
    rw [drain_eq, hstep]
    refine ⟨[], s, ?_, nofun⟩
    rw [List.append_nil, List.append_nil]
    exact h
  | case3 s r b rest r' hstep _ _ _ ih =>
    obtain ⟨new, last, hlast, hended⟩ := ih (h.batch hstep)
    rw [drain_eq, hstep]
    refine ⟨new, last, ?_, hended⟩
    rw [List.append_assoc] at hlast
    exact hlast
  | case4 s r rest r' hstep ih =>
    obtain ⟨new, hnext⟩ := h.exists_next hstep rfl
    obtain ⟨more, last, hlast, hended⟩ := ih hnext
    rw [drain_eq, hstep]
    refine ⟨new ++ more, last, ?_, hended⟩
    rw [← List.append_assoc]
    rwa [show out ++ Step.batches (.loaded rest) = out from List.append_nil out] at hlast

/-! ### What a scan stays with -/

/-- A scan stays with its snapshot and its columns, and loads its artifacts in turn. -/
theorem Streams.frame (h : start.Streams loads out s) :
    s.snapshot = start.snapshot ∧ s.projection = start.projection ∧
      (start.remaining = none → s.remaining = none) ∧
      loads.map Load.source ++ s.artifacts = start.artifacts := by
  induction h with
  | start => exact ⟨rfl, rfl, id, rfl⟩
  | batch _ hstep ih =>
    obtain ⟨p, stored, pending, b, -, -, -, rfl⟩ | ⟨p, a, artifacts, c, hstep', -⟩ := step_cases hstep rfl
    · obtain ⟨hsnapshot, hprojection, hremaining, hartifacts⟩ := ih
      refine ⟨hsnapshot, hprojection, fun hnone => ?_, hartifacts⟩
      show Option.map _ _ = none
      rw [hremaining hnone]
      rfl
    · cases hstep'
  | @load _ _ s rest l _ _ _ _ hstep hnext _ ih =>
    obtain ⟨p, stored, pending, b, hstep', -⟩ | ⟨p, a, artifacts, c, -, -, hsource, -, rfl⟩ :=
      step_cases hstep rfl
    · cases hstep'
    · obtain ⟨hsnapshot, hprojection, hremaining, hartifacts⟩ := ih
      refine ⟨hsnapshot, hprojection, hremaining, ?_⟩
      rw [hsource] at hnext hartifacts
      rw [List.map_append, List.map_singleton, ← Option.some.inj hnext, List.append_assoc]
      exact hartifacts

/-- Every batch has the columns asked for. -/
theorem Streams.schema_eq (h : start.Streams loads out s) :
    ∀ b ∈ out, start.snapshot.projected start.projection = .ok b.schema := by
  induction h with
  | start => exact nofun
  | @batch _ _ s _ b _ _ _ h hstep ih =>
    obtain ⟨p, stored, pending, b', hbatch, -, hshape, -⟩ | ⟨p, a, artifacts, c, hstep', -⟩ :=
      step_cases hstep rfl
    · cases hbatch
      obtain ⟨hsnapshot, hprojection, -⟩ := h.frame
      obtain ⟨aligned, whole, haligned, hwhole, hschema, -⟩ := of_shape hshape
      refine List.forall_mem_append.mpr ⟨ih, fun b' hb' => ?_⟩
      rw [Snapshot.of_batch haligned] at hwhole
      obtain ⟨hhas, rfl⟩ := Batch.project_eq_ok.mp hwhole
      rw [List.mem_singleton.mp hb', hschema, ← hsnapshot, ← hprojection]
      exact Snapshot.projected_eq_ok.mpr ⟨hhas, rfl⟩
    · cases hstep'
  | load _ _ _ _ ih => exact ih

/-! ### Rows of loads -/

/-- A load that comes to rows comes to its rows, and if there are any, its columns have a place in the
table. -/
theorem Load.of_outcome {t : Snapshot} {projection : Option (List Nat)} {l : Load} {rows : List Row}
    (h : l.outcome t projection = .ok rows) :
    rows = l.rows t projection ∧ (l.content.rows ≠ [] → ∀ f ∈ t.dataSchema, ∀ g,
      l.content.schema.column? f.name = some g → g.type.castsTo f.type = true) := by
  unfold outcome contentRows at h
  unfold Load.rows
  split at h
  · next hnone =>
    cases h
    have hrows : l.content.rows = [] := by
      unfold Artifact.Content.rows
      rw [hnone]
      rfl
    rw [hrows]
    exact ⟨rfl, fun hsome => absurd rfl hsome⟩
  · unfold batchRows at h
    split at h
    · next b hb =>
      cases h
      obtain ⟨aligned, haligned, hprojected⟩ := Outcome.bind_eq_ok.mp hb
      refine ⟨?_, fun _ => Snapshot.exists_batch_iff.mp ⟨aligned, haligned⟩⟩
      rw [Snapshot.of_batch haligned] at hprojected
      obtain ⟨-, rfl⟩ := Batch.project_eq_ok.mp hprojected
      exact List.map_map
    · cases h

/-- Loads come to the rows of the first ones of them, and to those of all if none fails. -/
theorem upToFailure_outcomes (t : Snapshot) (projection : Option (List Nat)) (loads : List Load) :
    (upToFailure (loads.map (Load.outcome t projection))).1 <+: loads.flatMap (Load.rows t projection) ∧
      ((upToFailure (loads.map (Load.outcome t projection))).2 = none →
        (upToFailure (loads.map (Load.outcome t projection))).1 = loads.flatMap (Load.rows t projection)) := by
  induction loads with
  | nil => exact ⟨List.prefix_rfl, fun _ => rfl⟩
  | cons l rest ih =>
    rw [List.map_cons, List.flatMap_cons]
    cases houtcome : l.outcome t projection with
    | error e => exact ⟨List.nil_prefix, nofun⟩
    | ok rows =>
      obtain ⟨rfl, -⟩ := Load.of_outcome houtcome
      refine ⟨(List.prefix_append_right_inj _).mpr ih.1, fun hnone => ?_⟩
      exact congrArg (l.rows t projection ++ ·) (ih.2 hnone)

/-- A row before the first failure is one of some rows. -/
theorem mem_upToFailure {outcomes : List (Except Error (List Row))} {row : Row}
    (h : row ∈ (upToFailure outcomes).1) : ∃ rows, .ok rows ∈ outcomes ∧ row ∈ rows := by
  induction outcomes with
  | nil => cases h
  | cons outcome rest ih =>
    cases outcome with
    | error e => cases h
    | ok rows =>
      obtain hfirst | hlater := List.mem_append.mp h
      · exact ⟨rows, .head _, hfirst⟩
      · obtain ⟨rows', hmem, hrow⟩ := ih hlater
        exact ⟨rows', .tail _ hmem, hrow⟩

/-! ### Rows of scans -/

/-- What the loads leave of the outcomes that are still to come is what the scan has left, after the rows that
it has handed out. -/
theorem Streams.leftWith_eq (h : start.Streams loads out s) (outcomes : List (Except Error (List Row))) :
    start.leftWith (loads.map (Load.outcome start.snapshot start.projection) ++ outcomes)
      = (out.flatMap Batch.rows ++ (s.leftWith outcomes).1, (s.leftWith outcomes).2) := by
  induction h generalizing outcomes with
  | start => rfl
  | batch _ hstep ih =>
    obtain ⟨p, stored, pending, b, hbatch, hpending, hshape, rfl⟩ | ⟨p, a, artifacts, c, hstep', -⟩ :=
      step_cases hstep rfl
    · cases hbatch
      rw [ih, leftWith_batch outcomes hpending hshape, List.flatMap_append, List.append_assoc,
        List.flatMap_singleton]
    · cases hstep'
  | @load _ _ s rest l _ _ _ h hstep hnext hload ih =>
    obtain ⟨p, stored, pending, b, hstep', -⟩ | ⟨p, a, artifacts, c, -, hpending, hsource, hload', rfl⟩ :=
      step_cases hstep rfl
    · cases hstep'
    · rw [hsource] at hnext
      obtain ⟨rfl, rfl⟩ := Prod.ext_iff.mp (Option.some.inj hnext)
      obtain rfl : l.content = c := Except.ok.inj (Prod.ext_iff.mp (hload.symm.trans hload')).1
      obtain ⟨hsnapshot, hprojection, -⟩ := h.frame
      rw [List.map_append, List.append_assoc, List.map_singleton, List.singleton_append, ih,
        ← leftWith_load outcomes hpending, hsnapshot, hprojection]
      rfl

/-- A limit leaves the first rows. -/
theorem limited_isPrefix (limit : Option Nat) (x : List Row × Option Error) :
    (limited limit x).1 <+: x.1 := by
  cases limit with
  | none => exact List.prefix_rfl
  | some count => exact List.take_prefix _ _

/-- A scan hands out the first ones of the rows that its loads come to. -/
theorem Streams.rows_outcomes (h : start.Streams loads out s) (hpending : start.pending = []) :
    out.flatMap Batch.rows <+:
      (upToFailure (loads.map (Load.outcome start.snapshot start.projection))).1 := by
  have hleft := h.leftWith_eq []
  rw [List.append_nil] at hleft
  unfold leftWith at hleft
  rw [hpending, List.map_nil, List.nil_append] at hleft
  refine List.IsPrefix.trans ?_ (limited_isPrefix start.remaining _)
  rw [hleft]
  exact List.prefix_append _ _

/-- A scan hands out the first rows of its loads. -/
theorem Streams.rows_isPrefix (h : start.Streams loads out s) (hpending : start.pending = []) :
    out.flatMap Batch.rows <+: loads.flatMap (Load.rows start.snapshot start.projection) :=
  (h.rows_outcomes hpending).trans (upToFailure_outcomes _ _ _).1

/-- The cells that a scan hands out are of the types of their columns, if those of the artifacts are. -/
theorem Streams.admits (h : start.Streams loads out s) (hpending : start.pending = [])
    (hschema : start.snapshot.schema = start.snapshot.dataSchema ++ Snapshot.keyColumns start.snapshot.keys)
    (hhas : start.snapshot.schema.Has start.projection)
    (hloads : ∀ l ∈ loads, ∀ r ∈ l.content.rows, l.content.schema.admits r = true) :
    ∀ row ∈ out.flatMap Batch.rows,
      (start.snapshot.schema.columnsAt start.projection).admits row = true := by
  intro row hrow
  obtain ⟨rows, houtcome, hrow⟩ := mem_upToFailure ((h.rows_outcomes hpending).subset hrow)
  obtain ⟨l, hl, hrows⟩ := List.mem_map.mp houtcome
  obtain ⟨rfl, hcasts⟩ := Load.of_outcome hrows
  obtain ⟨r, hr, rfl⟩ := List.mem_map.mp hrow
  have hcasts := hcasts (List.ne_nil_of_mem hr)
  exact Schema.admits_cellsAt (Snapshot.admits_row (hloads l hl r hr) hschema hcasts) hhas

/-- At its end a scan has reached its limit, or it has nothing left. -/
theorem Ended.cases (h : s.Ended) : s.remaining = some 0 ∨ s.pending = [] ∧ s.artifacts = [] := by
  obtain ⟨read, r, r', hstep⟩ := h
  unfold step at hstep
  split at hstep
  · next hfull => exact .inl hfull
  · split at hstep
    · split at hstep <;> cases hstep
    · split at hstep <;> cases hstep
    · next hpending hartifacts => exact .inr ⟨hpending, hartifacts⟩

/-- At the end of a scan without a limit all artifacts were loaded, and all of their rows handed out. -/
theorem Streams.rows_eq (h : start.Streams loads out s) (hpending : start.pending = [])
    (hlimit : start.remaining = none) (hended : s.Ended) :
    loads.map Load.source = start.artifacts ∧
      out.flatMap Batch.rows = loads.flatMap (Load.rows start.snapshot start.projection) := by
  obtain ⟨-, -, hremaining, hartifacts⟩ := h.frame
  obtain hfull | ⟨hnone, hnoArtifact⟩ := hended.cases
  · rw [hremaining hlimit] at hfull
    cases hfull
  · rw [hnoArtifact, List.append_nil] at hartifacts
    refine ⟨hartifacts, ?_⟩
    have hleft := h.leftWith_eq []
    unfold leftWith at hleft
    rw [hpending, hnone, hlimit, hremaining hlimit] at hleft
    have hall : upToFailure (loads.map (Load.outcome start.snapshot start.projection))
        = (out.flatMap Batch.rows, none) := by
      simpa [limited, upToFailure] using hleft
    have hrows := (upToFailure_outcomes start.snapshot start.projection loads).2 (by rw [hall])
    rw [hall] at hrows
    exact hrows

end Scan

end SourceTables

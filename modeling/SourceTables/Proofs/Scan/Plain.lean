import SourceTables.Scan

/-!
# `SourceTables.Proofs.Scan.Plain`: artifacts read one after another

The plain way to the rows of a table reads one artifact after another, each as a whole, puts its rows
under the table's columns, picks the columns asked for, and stops at the first failure. A limit is met
afterwards: it cuts the rows, and a failure behind the last of them is not met.

How an artifact is cut into batches does not matter: one failure stands for all of its batches, since
whether rows can be put under a table depends on their columns alone.

The theorems:

* `Scan.limited_append`: a limit for rows that come in two parts.
* `Scan.upToFailure_batches`: batches one by one are the artifact as a whole.
-/

set_option autoImplicit false

namespace SourceTables

open Artifact (Content)

namespace Scan

/-! ### Rows up to a failure or a limit -/

/-- The rows before the first failure, and the failure. -/
def upToFailure : List (Except Error (List Row)) → List Row × Option Error
  | [] => ([], none)
  | .error e :: _ => ([], some e)
  | .ok rows :: rest => (rows ++ (upToFailure rest).1, (upToFailure rest).2)

/-- The first rows, as many as a limit allows. -/
def takeUpTo (limit : Option Nat) (rows : List Row) : List Row :=
  match limit with
  | none => rows
  | some count => rows.take count

/-- What a limit leaves of some rows and the failure behind them. -/
def limited (limit : Option Nat) (x : List Row × Option Error) : List Row × Option Error :=
  match limit with
  | none => x
  | some count => (x.1.take count, if count ≤ x.1.length then none else x.2)

@[simp] theorem limited_zero (x : List Row × Option Error) : limited (some 0) x = ([], none) := by
  simp [limited]

theorem limited_none (limit : Option Nat) : limited limit ([], none) = ([], none) := by
  cases limit <;> simp [limited]

/-- A failure that comes first is met if any rows are asked for. -/
theorem limited_nil {limit : Option Nat} (h : limit ≠ some 0) (e : Error) :
    limited limit ([], some e) = ([], some e) := by
  cases limit with
  | none => rfl
  | some count =>
    have hcount : ¬count ≤ 0 := fun hle => h (by rw [Nat.le_zero.mp hle])
    simp [limited, hcount]

/-- A limit is left to the rows behind as far as the rows before do not use it up. -/
theorem limited_append (limit : Option Nat) (rows rest : List Row) (failure : Option Error) :
    limited limit (rows ++ rest, failure)
      = (takeUpTo limit rows ++ (limited (limit.map (· - (takeUpTo limit rows).length)) (rest, failure)).1,
        (limited (limit.map (· - (takeUpTo limit rows).length)) (rest, failure)).2) := by
  cases limit with
  | none => rfl
  | some count =>
    simp only [limited, takeUpTo, Option.map_some, List.length_take, List.take_append, List.length_append]
    by_cases hcount : count ≤ rows.length
    · rw [Nat.min_eq_left hcount, Nat.sub_self, Nat.sub_eq_zero_of_le hcount, if_pos (by omega),
        if_pos (Nat.zero_le _)]
    · rw [Nat.min_eq_right (by omega)]
      -- The rows before are all handed out, so the limit ends in the same place.
      have hsame : count ≤ rows.length + rest.length ↔ count - rows.length ≤ rest.length := by omega
      simp only [hsame]

/-- Whether the rows before some place are there and are not as many as a limit asks for. -/
def Unfilled (limit : Option Nat) (outcomes : List (Except Error (List Row))) : Prop :=
  (upToFailure outcomes).2 = none ∧ ∀ count, limit = some count → (upToFailure outcomes).1.length < count

theorem unfilled_nil {limit : Option Nat} (h : limit ≠ some 0) : Unfilled limit [] := by
  refine ⟨rfl, fun count hcount => Nat.pos_of_ne_zero ?_⟩
  rintro rfl
  exact h hcount

/-- With some rows before them, outcomes are unfilled for a limit as much larger. -/
theorem Unfilled.cons {limit : Option Nat} {rows : List Row} {outcomes : List (Except Error (List Row))}
    (h : Unfilled (limit.map (· - (takeUpTo limit rows).length)) outcomes) :
    Unfilled limit (.ok rows :: outcomes) := by
  obtain ⟨hfailure, hrows⟩ := h
  refine ⟨hfailure, ?_⟩
  rintro count rfl
  have hrest := hrows _ rfl
  simp only [takeUpTo, List.length_take] at hrest
  simp only [upToFailure, List.length_append]
  omega

/-! ### Rows of an artifact -/

variable (s : Snapshot) (projection : Option (List Nat)) (p : Partition)

/-- The rows of a batch in the table, with the columns asked for. -/
def batchRows (stored : Batch) : Except Error (List Row) :=
  match s.batch p stored >>= (Batch.project · projection) with
  | .ok b => .ok b.rows
  | .error e => .error (.column e)

/-- The rows of an artifact's content in the table. Nothing is done for an artifact without batches. -/
def contentRows (c : Content) : Except Error (List Row) :=
  if c.batches = [] then .ok [] else batchRows s projection p ⟨c.schema, c.rows⟩

/-- The rows of an artifact in the table. -/
def artifactRows (read : Path → Except Error Content) (a : Partition × ArtifactRef) : Except Error (List Row) :=
  read a.2.path >>= contentRows s projection a.1

/-- What becomes of each row with some columns, or the reason why they have no place in the table. -/
def rowShape (columns : Schema) : Except ColumnError (Row → Row) := do
  let sources ← s.columnSources p columns
  match projection with
  | none => return fun row => sources.map (ColumnSource.cell row)
  | some positions =>
    let _ ← s.schema.project positions
    return fun row => Row.project positions (sources.map (ColumnSource.cell row))

/-- Rows become rows of the table one by one. -/
theorem batchRows_eq (columns : Schema) (rows : List Row) :
    batchRows s projection p ⟨columns, rows⟩
      = match rowShape s projection p columns with
        | .ok shape => .ok (rows.map shape)
        | .error e => .error (.column e) := by
  unfold batchRows rowShape Snapshot.batch Batch.project
  cases s.columnSources p columns with
  | error e => rfl
  | ok sources =>
    cases projection with
    | none => rfl
    | some positions =>
      cases hschema : s.schema.project positions with
      | error e => simp [bind, Except.bind, Except.map, hschema]
      | ok schema =>
        simp [bind, Except.bind, Except.map, hschema, Snapshot.align, pure, Except.pure, Function.comp_def]

/-- The rows of batches one by one are the rows of the artifact. -/
theorem upToFailure_batches (c : Content) (rest : List (Except Error (List Row))) :
    upToFailure ((c.batches.map fun rows => batchRows s projection p ⟨c.schema, rows⟩) ++ rest)
      = upToFailure (contentRows s projection p c :: rest) := by
  have hbatches (batches : List (List Row)) (shape : Row → Row) :
      upToFailure ((batches.map fun rows => .ok (rows.map shape)) ++ rest)
        = upToFailure (.ok (batches.flatten.map shape) :: rest) := by
    induction batches with
    | nil => rfl
    | cons rows batches ih =>
      rw [List.map_cons, List.cons_append, upToFailure, ih]
      simp [upToFailure]
  unfold contentRows
  simp only [batchRows_eq]
  cases rowShape s projection p c.schema with
  | ok shape =>
    rw [hbatches]
    split
    · next hnone => rw [hnone]; rfl
    · rfl
  | error e =>
    cases hcases : c.batches with
    | nil => rfl
    | cons rows batches => rfl

end Scan

end SourceTables

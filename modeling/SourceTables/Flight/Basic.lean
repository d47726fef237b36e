import SourceTables.Error

/-!
# `SourceTables.Flight.Basic`: one run a key

Callers that want the same thing at the same time share one run. The first caller for a key starts a
run and registers it; later callers join it as long as it is unfinished; a finished run that nobody
has collected is replaced. Every caller that waits to the end gets the outcome and takes the run off
the register, and a run with a driver is also taken off by the driver.

A run is kept by its callers, by its driver and by the register. The caller that leaves nobody else
behind gets an error as it is; the others get what `Error.handOut` makes of it.
-/

set_option autoImplicit false

namespace SourceTables

/-- A run that callers share. -/
structure Run (κ α : Type) where
  key : κ
  /-- Whether a driver still waits for its end. -/
  driven : Bool
  outcome : Option (Except Error α)
  /-- How many callers wait for it. -/
  callers : Nat

/-- All runs by number, and the number of the run registered for each key. -/
structure Flight (κ α : Type) where
  runs : List (Run κ α)
  registered : List (κ × Nat)

namespace Flight

variable {κ α : Type}

/-- No runs. -/
def empty : Flight κ α := ⟨[], []⟩

instance : Inhabited (Flight κ α) := ⟨empty⟩

/-- The outcome of a run, if it has finished. -/
def outcome? (f : Flight κ α) (id : Nat) : Option (Except Error α) :=
  f.runs[id]?.bind Run.outcome

/-- Changes a run. -/
def update (f : Flight κ α) (id : Nat) (change : Run κ α → Run κ α) : Flight κ α :=
  { f with runs := f.runs.modify id change }

/-- The outcome of a run becomes known. A finished run keeps its outcome. -/
def settle (f : Flight κ α) (id : Nat) (outcome : Except Error α) : Flight κ α :=
  f.update id fun run => { run with outcome := run.outcome.or (some outcome) }

/-- A caller stops waiting. -/
def leave (f : Flight κ α) (id : Nat) : Flight κ α :=
  f.update id fun run => { run with callers := run.callers - 1 }

variable [DecidableEq κ]

/-- The run registered for a key. -/
def current? (f : Flight κ α) (key : κ) : Option Nat :=
  (f.registered.find? (fun e => e.1 = key)).map Prod.snd

/-- Whether an unfinished run is registered for a key. -/
def isInFlight (f : Flight κ α) (key : κ) : Bool :=
  match f.current? key with
  | some id => (f.outcome? id).isNone
  | none => false

/-- Takes a key off the register. -/
def deregister (f : Flight κ α) (key : κ) : Flight κ α :=
  { f with registered := f.registered.filter (fun e => e.1 ≠ key) }

/-- What a caller has after asking for a run. -/
structure Joined (κ α : Type) where
  flight : Flight κ α
  run : Nat
  /-- Whether the caller started the run. -/
  started : Bool

/-- A caller asks for a run: it joins the unfinished run of the key, or starts one, with a driver or
without. -/
def register (f : Flight κ α) (key : κ) (driven : Bool) : Joined κ α :=
  match f.current? key with
  | some id =>
    -- A finished run is not joined: its outcome may be out of date.
    if (f.outcome? id).isNone then
      ⟨f.update id fun run => { run with callers := run.callers + 1 }, id, false⟩
    else start
  | none => start
where
  /-- Starts a run and registers it in place of whatever was registered. -/
  start : Joined κ α :=
    let id := f.runs.length
    let f' := f.deregister key
    ⟨{ runs := f'.runs ++ [⟨key, driven, none, 1⟩], registered := (key, id) :: f'.registered }, id, true⟩

/-- Takes a key off the register if its run has finished. -/
def forgetFinished (f : Flight κ α) (key : κ) : Flight κ α :=
  match f.current? key with
  | some id => if (f.outcome? id).isSome then f.deregister key else f
  | none => f

/-- The driver of a finished run goes away. -/
def driverDone (f : Flight κ α) (id : Nat) : Flight κ α :=
  match f.runs[id]? with
  | some run =>
    if run.driven && run.outcome.isSome then
      (f.update id fun run => { run with driven := false }).forgetFinished run.key
    else f
  | none => f

/-- The drivers of all finished runs go away. -/
def driversDone (f : Flight κ α) : Flight κ α :=
  (List.range f.runs.length).foldl driverDone f

/-- Whether nobody holds on to a run. -/
def isReleased (f : Flight κ α) (id : Nat) : Bool :=
  match f.runs[id]? with
  | some run => run.callers == 0 && !run.driven && f.current? run.key != some id
  | none => true

/-- A caller collects the outcome of its run, if there is one. -/
def finish (f : Flight κ α) (id : Nat) : Option (Except Error α × Flight κ α) :=
  match f.runs[id]? with
  | none => none
  | some run => run.outcome.map fun outcome =>
    -- The register may hold a later run of the key already, which stays.
    let left := (if f.current? run.key = some id then f.deregister run.key else f).leave id
    match outcome with
    | .ok value => (.ok value, left)
    | .error e => (.error (e.handOut (left.isReleased id)), left)

end Flight

end SourceTables

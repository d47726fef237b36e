import SourceTables.Flight.Basic

/-!
# `SourceTables.Flight.Callers`: callers that are polled

A caller asks for a run at once, or when it is first polled, and brings the work that a run started
for it would do. The work ends when its result is delivered, or as cancelled when it is abandoned. A
run ends when somebody who waits for it, a polled caller or its driver, finds its work ended.

`settle` lets the drivers go on; everything else that happens is one operation here.
-/

set_option autoImplicit false

namespace SourceTables

/-- What a caller does. -/
inductive Waiting (κ : Type) where
  /-- It asks for a run of the key when it is polled. -/
  | unpolled (key : κ)
  | waiting (run : Nat)

/-- Work that a caller brought. -/
structure Work where
  caller : String
  /-- The run that does it; none while its caller has not asked for a run, or if the caller joined
  one and the work was thrown away. -/
  run : Option Nat

/-- What polling a caller gives. -/
inductive Polled (α : Type) where
  | unknown
  | pending
  | ready (outcome : Except Error α)

/-- A flight with its callers by name. -/
structure Callers (κ α : Type) where
  flight : Flight κ α := .empty
  callers : List (String × Waiting κ) := []
  /-- Work whose result has not been delivered. -/
  works : List Work := []
  /-- Results of the work of runs. -/
  results : List (Nat × Except Error α) := []
  /-- Results that callers brought before they asked for a run. -/
  early : List (String × Except Error α) := []

namespace Callers

variable {κ α : Type} [DecidableEq κ]

/-- What a caller does. -/
def caller? (c : Callers κ α) (name : String) : Option (Waiting κ) :=
  (c.callers.find? (fun e => e.1 == name)).map Prod.snd

/-- The callers without one. -/
def others (c : Callers κ α) (name : String) : List (String × Waiting κ) :=
  c.callers.filter (fun e => e.1 != name)

/-- The result of a run's work, if there is one, becomes the run's outcome. -/
def settleRun (c : Callers κ α) (run : Nat) : Callers κ α :=
  match c.results.find? (fun e => e.1 == run) with
  | some (_, result) => { c with flight := c.flight.settle run result }
  | none => c

/-- Drivers whose runs can end let them end. -/
def settle (c : Callers κ α) : Callers κ α :=
  let driven := (List.range c.flight.runs.length).filter fun run =>
    (c.flight.runs[run]?.map Run.driven).getD false
  let c := driven.foldl settleRun c
  { c with flight := c.flight.driversDone }

/-- A caller goes away; whether it was there. -/
def drop (c : Callers κ α) (name : String) : Bool × Callers κ α :=
  match c.caller? name with
  | none => (false, c)
  | some (.unpolled _) => (true, { c with callers := c.others name })
  | some (.waiting run) =>
    (true, { c with callers := c.others name, flight := c.flight.leave run })

/-- The work of an earlier caller of a name is abandoned: a run that waits for it is cancelled. -/
def abandon (c : Callers κ α) (name : String) : Callers κ α :=
  let cancelled := (c.works.filter (fun w => w.caller == name)).filterMap Work.run
  { c with
    works := c.works.filter (fun w => w.caller != name)
    results := c.results ++ cancelled.map (fun run => (run, .error .cancelled))
    early := c.early.filter (fun e => e.1 != name) }

/-- A new caller asks for a run; whether it started one. -/
def ask (c : Callers κ α) (name : String) (key : κ) (driven : Bool) : Bool × Callers κ α :=
  let joined := c.flight.register key driven
  -- The new caller joins before the old one of its name goes, so a run that both want goes on.
  let c := ({ c with flight := joined.flight }.drop name).2.abandon name
  (joined.started, { c with
    callers := (name, .waiting joined.run) :: c.callers
    works := ⟨name, if joined.started then some joined.run else none⟩ :: c.works })

/-- A new caller that asks when it is polled. -/
def askLater (c : Callers κ α) (name : String) (key : κ) : Callers κ α :=
  let c := (c.drop name).2.abandon name
  { c with callers := (name, .unpolled key) :: c.callers, works := ⟨name, none⟩ :: c.works }

/-- A result is delivered. True if anyone waits for it, false if the work was thrown away, none if
there is no such work or it has its result. -/
def deliver (c : Callers κ α) (name : String) (result : Except Error α) :
    Option Bool × Callers κ α :=
  match c.works.find? (fun w => w.caller == name) with
  | none => (none, c)
  | some work =>
    let c := { c with works := c.works.filter (fun w => w.caller != name) }
    match work.run, c.caller? name with
    | some run, _ => (some true, { c with results := c.results ++ [(run, result)] })
    -- The result waits until the caller asks for a run.
    | none, some (.unpolled _) => (some true, { c with early := (name, result) :: c.early })
    | none, _ => (some false, c)

/-- A caller that has not asked yet asks now: its work goes to the run that it starts. -/
def askNow (c : Callers κ α) (name : String) (key : κ) : Nat × Callers κ α :=
  let joined := c.flight.register key false
  let c := { c with
    flight := joined.flight, callers := (name, .waiting joined.run) :: c.others name }
  if joined.started then
    (joined.run, { c with
      -- What was brought early is the result of the run that starts now.
      results := c.results
        ++ (c.early.filter (fun e => e.1 == name)).map (fun e => (joined.run, e.2))
      works := c.works.map fun w => if w.caller == name then ⟨name, some joined.run⟩ else w })
  else (joined.run, c)

/-- Polls a caller once. A caller that has its outcome is gone. -/
def poll (c : Callers κ α) (name : String) : Polled α × Callers κ α :=
  match c.caller? name with
  | none => (.unknown, c)
  | some waiting =>
    let (run, c) := match waiting with
      | .waiting run => (run, c)
      | .unpolled key => c.askNow name key
    let c := c.settleRun run
    match c.flight.finish run with
    | none => (.pending, c)
    | some (outcome, flight) => (.ready outcome, { c with flight, callers := c.others name })

end Callers

end SourceTables

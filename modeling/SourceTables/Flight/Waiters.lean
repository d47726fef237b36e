import SourceTables.Flight.Basic

/-!
# `SourceTables.Flight.Waiters`: callers and drivers between whose steps others come

A caller asks for a run and waits. When the run has finished, the caller takes the outcome, then takes
the run off the register, and then lets go of it; between these steps others may do theirs. A caller
that still waits may go away. A driver that has seen the end of its run takes the key off the register
if what stands there has finished, whichever run it is.

Whoever lets go of an error last gets the error itself. Who is last depends on what the others do with
their copies, so it is part of the event.

Main statements: `finish_of_steps` (nobody in between, the steps are those of `Flight.finish`).
-/

set_option autoImplicit false

namespace SourceTables

namespace Flight

variable {κ α : Type}

/-- What a caller makes of the outcome of its run, alone or as one of several that hold it. -/
def handOut (outcome : Except Error α) (last : Bool) : Except Error α :=
  outcome.mapError fun e => e.handOut last

variable [DecidableEq κ]

/-- Takes a run off the register, unless another one of its key stands there. -/
def cleanUp (f : Flight κ α) (id : Nat) : Flight κ α :=
  match f.runs[id]? with
  | some run => if f.current? run.key = some id then f.deregister run.key else f
  | none => f

/-- A caller collects an outcome, cleans up, lets go of the run, and makes something of the outcome. -/
theorem finish_of_steps (f : Flight κ α) (id : Nat) :
    f.finish id = (f.outcome? id).map fun outcome =>
      (handOut outcome (((f.cleanUp id).leave id).isReleased id), (f.cleanUp id).leave id) := by
  unfold finish outcome? cleanUp
  cases f.runs[id]? with
  | none => rfl
  | some run =>
    rcases run with ⟨key, driven, outcome, callers⟩
    cases outcome with
    | none => rfl
    | some outcome => cases outcome <;> rfl

end Flight

namespace Waiters

/-- How far a caller has come. -/
inductive Progress (α : Type) where
  | waiting
  /-- It has the outcome of its run. -/
  | collected (outcome : Except Error α)
  /-- It has taken its run off the register. -/
  | cleaned (outcome : Except Error α)
  /-- It has let go of its run. -/
  | answered (given : Except Error α)
  | gone

/-- A caller that has asked for a run. -/
structure Waiter (κ α : Type) where
  key : κ
  /-- The run that it has started or joined. -/
  run : Nat
  started : Bool
  progress : Progress α

end Waiters

/-- A flight with the callers of its runs. -/
structure Waiters (κ α : Type) where
  flight : Flight κ α
  callers : List (Waiters.Waiter κ α)

namespace Waiters

variable {κ α : Type}

/-- What can happen. -/
inductive Event (κ α : Type) where
  /-- A new caller asks for a run; if it starts one, the run gets a driver or none. -/
  | ask (key : κ) (driven : Bool)
  /-- The work of a run ends. -/
  | complete (run : Nat) (outcome : Except Error α)
  | collect (caller : Nat)
  | cleanUp (caller : Nat)
  /-- A caller lets go of its run. -/
  | answer (caller : Nat) (last : Bool)
  /-- A caller goes away. -/
  | drop (caller : Nat)
  /-- The driver of a run has seen its end. -/
  | forget (run : Nat)

/-- Nobody has asked for anything. -/
def empty : Waiters κ α := ⟨.empty, []⟩

/-- A caller goes on. -/
def setCaller (s : Waiters κ α) (caller : Nat) (w : Waiter κ α) (progress : Progress α) :
    Waiters κ α :=
  { s with callers := s.callers.set caller { w with progress } }

variable [DecidableEq κ]

/-- What an event changes, if it can happen. -/
def step (s : Waiters κ α) : Event κ α → Option (Waiters κ α)
  | .ask key driven =>
    let joined := s.flight.register key driven
    some ⟨joined.flight, s.callers ++ [⟨key, joined.run, joined.started, .waiting⟩]⟩
  | .complete run outcome => match s.flight.runs[run]? with
    | some ⟨_, _, none, _⟩ => some { s with flight := s.flight.settle run outcome }
    | _ => none
  | .collect caller => match s.callers[caller]? with
    | some ⟨key, run, started, .waiting⟩ => (s.flight.outcome? run).map fun outcome =>
      s.setCaller caller ⟨key, run, started, .waiting⟩ (.collected outcome)
    | _ => none
  | .cleanUp caller => match s.callers[caller]? with
    | some ⟨key, run, started, .collected outcome⟩ =>
      some { s.setCaller caller ⟨key, run, started, .waiting⟩ (.cleaned outcome) with
        flight := s.flight.cleanUp run }
    | _ => none
  | .answer caller last => match s.callers[caller]? with
    | some ⟨key, run, started, .cleaned outcome⟩ =>
      some { s.setCaller caller ⟨key, run, started, .waiting⟩
          (.answered (Flight.handOut outcome last)) with
        flight := s.flight.leave run }
    | _ => none
  | .drop caller => match s.callers[caller]? with
    | some ⟨key, run, started, .waiting⟩ =>
      some { s.setCaller caller ⟨key, run, started, .waiting⟩ .gone with
        flight := s.flight.leave run }
    | _ => none
  | .forget run => match s.flight.runs[run]? with
    | some ⟨_, true, some _, _⟩ => some { s with flight := s.flight.driverDone run }
    | _ => none

/-- What events change that happen one after another. -/
def steps (s : Waiters κ α) (events : List (Event κ α)) : Option (Waiters κ α) := events.foldlM step s

end Waiters

end SourceTables

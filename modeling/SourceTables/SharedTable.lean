import SourceTables.Flight.Basic
import SourceTables.LiveTable

/-!
# `SourceTables.SharedTable`: a table that many callers use at once

Callers refresh a table, scan it, or signal that its sources have changed, all at the same time. They
share passes: a caller that finds an unfinished pass waits for it, and one that finds none starts one. A
pass is driven on its own and ends even if all its callers go away. It looks at the token of the caller
that started it: once this is cancelled, the pass publishes nothing any more.

A caller that was given the end of a pass as cancelled, but whose own token is not, asks again. A caller
that has joined a pass can stop waiting for it when its own token is cancelled.

Whatever is read or written of the shared state in one go is an event: the flag that asks for a refresh,
the snapshot, the time of the last refresh, the register of passes, and tokens. `step` says what an event
changes, or that it cannot happen now. What a pass builds is part of its event, whatever it may be.

Main statements: `endPass_of_steps` and `needsRefresh_eq` put what others can come between back together.
-/

set_option autoImplicit false

namespace SourceTables

namespace LiveTable

/-! ### The end of a pass, part by part -/

/-- A pass has built its candidate, or failed to. -/
def countPass (t : LiveTable) : LiveTable := { t with passes := t.passes + 1 }

/-- Sets the flag if asked to, and never clears it. -/
def restoreStale (t : LiveTable) (asked : Bool) : LiveTable := { t with stale := t.stale || asked }

/-- What a pass asks for that ends with an error: a refresh, or what was asked for at its start if it
was only called off. -/
def asksAgain (wasStale : Bool) (e : Error) : Bool := if e.root = .cancelled then wasStale else true

/-- A candidate becomes current, unless it shows the same as the current snapshot. -/
def publish (t : LiveTable) (candidate : Snapshot) : LiveTable :=
  if t.current.sameContent candidate then t else { t with current := candidate }

/-- Keeps the time of a refresh. -/
def stamp (t : LiveTable) (now : Nat) : LiveTable := { t with refreshedAt := some now }

/-- The end of a pass is made of its parts. -/
theorem endPass_of_steps (t : LiveTable) (wasStale : Bool) (built : Except Error Snapshot) (now : Nat) :
    (t.endPass wasStale built now).2 = match built with
      | .error e => t.countPass.restoreStale (asksAgain wasStale e)
      | .ok candidate => (t.countPass.publish candidate).stamp now := by
  cases built with
  | error e => rfl
  | ok candidate =>
    by_cases h : t.current.sameContent candidate <;>
      simp [endPass, publish, stamp, countPass, h]

/-- Whether there was no refresh yet, or the last one is too long ago. -/
def isOverdue (t : LiveTable) (now : Nat) : Bool :=
  match t.refreshedAt, t.interval with
  | none, _ => true
  | some before, some seconds => before + seconds * second ≤ now
  | some _, none => false

/-- A refresh is due if the flag is set or the last one is overdue. -/
theorem needsRefresh_eq (t : LiveTable) (now : Nat) :
    t.needsRefresh now = (t.stale || t.isOverdue now) := rfl

end LiveTable

namespace SharedTable

/-- How far a pass has come. -/
inductive Stage where
  /-- It has a caller, but does not run yet. -/
  | registered
  | building
  | built (outcome : Except Error Snapshot)
  /-- The pass was not called off. -/
  | publishing (candidate : Snapshot)
  | published (snapshot : Snapshot)
  /-- Nothing is left to do but to tell the outcome. -/
  | ended (outcome : Except Error Snapshot)

/-- A pass. -/
structure Pass where
  /-- The token of the caller that started it; none if nobody can cancel that. -/
  token : Option Nat
  /-- Whether a refresh was asked for when the pass began. -/
  wasStale : Bool := false
  stage : Stage := .registered

/-- How far a call has come. -/
inductive Progress where
  /-- A scan looks at the flag. -/
  | looking
  /-- A scan has found the flag clear and looks at the time of the last refresh. -/
  | timing
  /-- The caller asks for a pass. -/
  | asking
  | waiting (run : Nat) (started : Bool)
  /-- A scan keeps the failure of its refresh for whoever takes it. -/
  | deferring (failure : Error)
  /-- A scan takes the current snapshot, whatever has become of its refresh. -/
  | reading (failure : Option Error)
  | answered (outcome : Except Error Snapshot)
  | scanned (snapshot : Snapshot) (failure : Option Error)
  /-- The caller has gone away. -/
  | gone

/-- A caller. -/
structure Call where
  /-- The token of the caller; none if nobody can cancel that. -/
  token : Option Nat
  /-- Whether the call is a scan. -/
  scans : Bool
  progress : Progress

end SharedTable

/-- A table with its passes and all that call it. -/
structure SharedTable where
  table : LiveTable
  flight : Flight Unit Snapshot := .empty
  /-- The pass of each run, by the number of the run. -/
  passes : List SharedTable.Pass := []
  calls : List SharedTable.Call := []
  /-- The tokens that were cancelled. -/
  cancelled : List Nat := []

namespace SharedTable

/-- What can happen. -/
inductive Event where
  | cancel (token : Nat)
  | markStale
  | setInterval (seconds : Option Nat)
  /-- Somebody takes the failure that was kept. -/
  | takeError
  | refresh (token : Option Nat)
  | scan
  /-- A scan looks at the flag. -/
  | look (call : Nat)
  /-- A scan looks at the time of the last refresh. -/
  | time (call : Nat) (now : Nat)
  | ask (call : Nat)
  /-- A caller is given the outcome of its pass. -/
  | collect (call : Nat)
  /-- A caller that has joined a pass stops waiting for it. -/
  | giveUp (call : Nat)
  /-- A scan keeps the failure of its refresh. -/
  | defer (call : Nat)
  | read (call : Nat)
  /-- A caller goes away. -/
  | drop (call : Nat)
  /-- A pass begins and clears the flag. -/
  | begin (run : Nat)
  | build (run : Nat) (outcome : Except Error Snapshot)
  /-- A pass looks whether it was called off. -/
  | check (run : Nat)
  | publish (run : Nat)
  | stamp (run : Nat) (now : Nat)
  | settle (run : Nat)
  /-- The driver of a pass goes away. -/
  | forget (run : Nat)

/-- A table that nobody has called yet. -/
def ofTable (table : LiveTable) : SharedTable := { table }

/-- Whether a token was cancelled. -/
def isCancelled (s : SharedTable) (token : Option Nat) : Bool := token.any s.cancelled.contains

/-- A call goes on. -/
def setCall (s : SharedTable) (call : Nat) (c : Call) : SharedTable :=
  { s with calls := s.calls.set call c }

/-- A pass goes on. -/
def setPass (s : SharedTable) (run : Nat) (pass : Pass) : SharedTable :=
  { s with passes := s.passes.set run pass }

/-- What a caller does with the outcome of its pass. -/
def next (scans cancelled : Bool) : Except Error Snapshot → Progress
  | .ok snapshot => if scans then .reading none else .answered (.ok snapshot)
  | .error e =>
    -- Somebody else has cancelled the pass that this caller has joined.
    if e.root = .cancelled ∧ cancelled = false then .asking
    else if scans then .deferring e else .answered (.error e)

/-- What a caller that goes away leaves behind. -/
def leaving (flight : Flight Unit Snapshot) : Progress → Flight Unit Snapshot
  | .waiting run _ => flight.leave run
  | _ => flight

/-- What an event changes, if it can happen. -/
def step (s : SharedTable) : Event → Option SharedTable
  | .cancel token => some { s with cancelled := token :: s.cancelled }
  | .markStale => some { s with table := s.table.markStale }
  | .setInterval seconds => some { s with table := { s.table with interval := seconds } }
  | .takeError => some { s with table := s.table.takeError.2 }
  | .refresh token => some { s with calls := s.calls ++ [⟨token, false, .asking⟩] }
  | .scan => some { s with calls := s.calls ++ [⟨none, true, .looking⟩] }
  | .look call => match s.calls[call]? with
    | some ⟨token, scans, .looking⟩ =>
      some (s.setCall call ⟨token, scans, if s.table.stale then .asking else .timing⟩)
    | _ => none
  | .time call now => match s.calls[call]? with
    | some ⟨token, scans, .timing⟩ =>
      some (s.setCall call ⟨token, scans, if s.table.isOverdue now then .asking else .reading none⟩)
    | _ => none
  | .ask call => match s.calls[call]? with
    | some ⟨token, scans, .asking⟩ =>
      let joined := s.flight.register () true
      some { s.setCall call ⟨token, scans, .waiting joined.run joined.started⟩ with
        flight := joined.flight
        passes := if joined.started then s.passes ++ [{ token }] else s.passes }
    | _ => none
  | .collect call => match s.calls[call]? with
    | some ⟨token, scans, .waiting run _⟩ => do
      let (outcome, flight) ← s.flight.finish run
      return { s.setCall call ⟨token, scans, next scans (s.isCancelled token) outcome⟩ with flight }
    | _ => none
  | .giveUp call => match s.calls[call]? with
    | some ⟨token, scans, .waiting run false⟩ =>
      if s.isCancelled token then
        some { s.setCall call ⟨token, scans, .answered (.error .cancelled)⟩ with
          flight := s.flight.leave run }
      else none
    | _ => none
  | .defer call => match s.calls[call]? with
    | some ⟨token, scans, .deferring failure⟩ =>
      some { s.setCall call ⟨token, scans, .reading (some failure)⟩ with
        table := { s.table with deferred := some failure } }
    | _ => none
  | .read call => match s.calls[call]? with
    | some ⟨token, scans, .reading failure⟩ =>
      some (s.setCall call ⟨token, scans, .scanned s.table.current failure⟩)
    | _ => none
  | .drop call => match s.calls[call]? with
    | some ⟨token, scans, progress⟩ =>
      some { s.setCall call ⟨token, scans, .gone⟩ with flight := leaving s.flight progress }
    | none => none
  | .begin run => match s.passes[run]? with
    | some ⟨token, _, .registered⟩ =>
      let (wasStale, table) := s.table.beginPass
      some { s.setPass run ⟨token, wasStale, .building⟩ with table }
    | _ => none
  | .build run outcome => match s.passes[run]? with
    | some ⟨token, wasStale, .building⟩ =>
      some { s.setPass run ⟨token, wasStale, .built outcome⟩ with table := s.table.countPass }
    | _ => none
  | .check run => match s.passes[run]? with
    | some ⟨token, wasStale, .built (.ok candidate)⟩ =>
      if s.isCancelled token then
        some { s.setPass run ⟨token, wasStale, .ended (.error .cancelled)⟩ with
          table := s.table.restoreStale wasStale }
      else some (s.setPass run ⟨token, wasStale, .publishing candidate⟩)
    | some ⟨token, wasStale, .built (.error e)⟩ =>
      some { s.setPass run ⟨token, wasStale, .ended (.error e)⟩ with
        table := s.table.restoreStale (LiveTable.asksAgain wasStale e) }
    | _ => none
  | .publish run => match s.passes[run]? with
    | some ⟨token, wasStale, .publishing candidate⟩ =>
      let table := s.table.publish candidate
      some { s.setPass run ⟨token, wasStale, .published table.current⟩ with table }
    | _ => none
  | .stamp run now => match s.passes[run]? with
    | some ⟨token, wasStale, .published snapshot⟩ =>
      some { s.setPass run ⟨token, wasStale, .ended (.ok snapshot)⟩ with table := s.table.stamp now }
    | _ => none
  | .settle run => match s.passes[run]? with
    | some ⟨_, _, .ended outcome⟩ => some { s with flight := s.flight.settle run outcome }
    | _ => none
  | .forget run => some { s with flight := s.flight.driverDone run }

/-- What events change that happen one after another. -/
def steps (s : SharedTable) (events : List Event) : Option SharedTable := events.foldlM step s

end SharedTable

end SourceTables

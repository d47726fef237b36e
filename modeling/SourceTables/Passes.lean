import SourceTables.Flight.Basic
import SourceTables.LiveTable

/-!
# `SourceTables.Passes`: refresh passes with their workers

A pass asks for one run a file, in the order of the layout. The worker of a run takes the version that
the source has when the work begins, and then makes the conversion of that version. The pass takes the
outcomes as they become known, and assembles a candidate when it has all of them.

A pass that is called off only stops waiting. The runs that it has asked for stay registered, their
workers go on, and the next pass that asks for one of these files is given the run that it finds. A
call that finds a pass in flight waits for it and has no effect of its own.

Whatever may happen next is an event. `step` says what it changes, or that it cannot happen now.
-/

set_option autoImplicit false

namespace SourceTables

/-- The work of a run. -/
structure Job where
  path : Path
  /-- The version of the source that is converted, once the worker has taken it. -/
  source : Option Fingerprint := none
  outcome : Option (Except Error Record) := none

/-- A file that a pass has asked for. -/
structure Request where
  path : Path
  run : Nat
  /-- What the pass was given. -/
  outcome : Option (Except Error Record) := none

/-- How far a pass has come. -/
inductive Stage where
  | detecting
  /-- Some files are still to be asked for; the others are asked for in the order of the layout. -/
  | converting (layout : Layout) (ahead : List Path) (requests : List Request)

/-- A pass in flight. -/
structure Pass where
  /-- Whether a refresh was asked for when the pass began. -/
  wasStale : Bool
  stage : Stage

/-- A table with its passes and all workers. -/
structure Refreshing where
  table : LiveTable
  workspace : Workspace
  files : Files
  flight : Flight (List Component) Record := .empty
  /-- The work of each run, by the number of the run. -/
  jobs : List Job := []
  pass : Option Pass := none
  /-- How the last pass ended. -/
  answer : Option (Except Error Bool) := none

/-- What can happen. -/
inductive Event where
  /-- Somebody else changes files. -/
  | edit (files : Files)
  /-- A caller finds no pass in flight and begins one. -/
  | begin
  | detect
  /-- The pass asks for its next file. -/
  | ask
  /-- The worker of a run goes on. -/
  | work (run : Nat)
  /-- The pass looks at one of its requests, whose outcome is known. -/
  | collect (position : Nat)
  | callOff
  /-- The pass has all outcomes and ends. -/
  | complete

namespace Request

/-- The outcomes of requests by their paths, if all are known. -/
def results? (requests : List Request) : Option (List (Path × Except Error Record)) :=
  requests.mapM fun request => request.outcome.map (request.path, ·)

/-- How many outcomes are held back or awaited: a pass takes them in the order of its requests. -/
def buffered (requests : List Request) : Nat :=
  (requests.dropWhile fun request => request.outcome.isSome).length

end Request

namespace Refreshing

/-- The pass ends. -/
def conclude (s : Refreshing) (wasStale : Bool) (built : Except Error Snapshot) : Refreshing :=
  let (answer, table, workspace, files) := s.table.finishPass s.workspace s.files wasStale built
  { s with table, workspace, files, pass := none, answer := some answer }

/-- The pass asks for a file: it joins the run that is registered and unfinished, or starts one. -/
def askFor (s : Refreshing) (p : Path) : Nat × Refreshing :=
  let joined := s.flight.register p.components false
  (joined.run, { s with
    flight := joined.flight, jobs := if joined.started then s.jobs ++ [{ path := p }] else s.jobs })

/-- The worker of a run goes on: it takes the version of its source, then it converts that version. -/
def work (s : Refreshing) (run : Nat) (job : Job) : Option Refreshing :=
  match job.outcome, job.source with
  | some _, _ => none
  | none, none =>
    let job := match s.workspace.version s.files job.path with
      | .ok source => { job with source := some source }
      | .error e => { job with outcome := some (.error e) }
    some { s with jobs := s.jobs.set run job }
  | none, some source =>
    let (outcome, workspace, files) := s.workspace.ensureVersion s.files job.path source
    some { s with workspace, files, jobs := s.jobs.set run { job with outcome := some outcome } }

/-- The outcome of a request whose work has ended, and the runs after it was taken. -/
def outcome? (s : Refreshing) (request : Request) :
    Option (Except Error Record × Flight (List Component) Record) :=
  match request.outcome, (s.jobs[request.run]?).bind Job.outcome with
  -- The work of a run becomes its outcome when somebody looks at it.
  | none, some outcome => (s.flight.settle request.run outcome).finish request.run
  | _, _ => none

/-- The runs that a pass leaves behind: it waits for none of them any more. -/
def leaveAll (flight : Flight (List Component) Record) : Stage → Flight (List Component) Record
  | .detecting => flight
  | .converting _ _ requests =>
    (requests.filter fun request => request.outcome.isNone).foldl
      (fun flight request => flight.leave request.run) flight

/-- What an event changes, if it can happen. -/
def step (s : Refreshing) : Event → Option Refreshing
  | .edit files => some { s with files }
  | .begin => match s.pass with
    | some _ => none
    | none =>
      let (wasStale, table) := s.table.beginPass
      some { s with table, pass := some ⟨wasStale, .detecting⟩ }
  | .detect => match s.pass with
    | some ⟨wasStale, .detecting⟩ =>
      match s.table.origin.layout (s.workspace.detection s.table.maxDepth) s.files with
      | .ok layout => some { s with pass := some ⟨wasStale, .converting layout layout.files []⟩ }
      | .error e => some (s.conclude wasStale (.error e))
    | _ => none
  | .ask => match s.pass with
    | some ⟨wasStale, .converting layout (p :: ahead) requests⟩ =>
      if Request.buffered requests < s.workspace.parallelism then
        let (run, s) := s.askFor p
        some { s with
          pass := some ⟨wasStale, .converting layout ahead (requests ++ [{ path := p, run }])⟩ }
      else none
    | _ => none
  | .work run => (s.jobs[run]?).bind (s.work run)
  | .collect position => match s.pass with
    | some ⟨wasStale, .converting layout ahead requests⟩ => do
      let request ← requests[position]?
      let (outcome, flight) ← s.outcome? request
      return { s with
        flight
        pass := some ⟨wasStale, .converting layout ahead
          (requests.set position { request with outcome := some outcome })⟩ }
    | _ => none
  | .callOff => match s.pass with
    | some pass =>
      some ({ s with flight := leaveAll s.flight pass.stage }.conclude pass.wasStale
        (.error .cancelled))
    | none => none
  | .complete => match s.pass with
    | some ⟨wasStale, .converting layout [] requests⟩ => do
      let results ← Request.results? requests
      let built := s.table.assemble s.files LiveTable.uninterrupted layout results
      return { s with files := s.files.tick }.conclude wasStale built
    | _ => none

/-- What events change that happen one after another. -/
def steps (s : Refreshing) (events : List Event) : Option Refreshing := events.foldlM step s

/-- The layout of the pass in flight, once it is known. -/
def layout? (s : Refreshing) : Option Layout :=
  match s.pass with
  | some ⟨_, .converting layout _ _⟩ => some layout
  | _ => none

/-- One event happens. -/
def Step (s s' : Refreshing) : Prop := ∃ event, s.step event = some s'

end Refreshing

end SourceTables

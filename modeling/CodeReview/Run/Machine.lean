import CodeReview.Distinct
import CodeReview.Run.Report
import CodeReview.Telemetry

/-!
# Runs

A run dispatches its jobs one after another, each when a worker slot is free, and looks at the cancel
signal before it waits for a slot and again once it has one.  A dispatched job hands its executor over
to a pool of threads, the executor returns, and the result is settled.  A job that is out of time is
settled before its executor has returned; the slot of a job is held until its executor returns.  When
the signal is seen, the jobs that are left are skipped.

An executor counts as started from the moment that it is handed over.  The pool may let it wait for a
thread, and nobody sees when it gets one: what is `running` here is at work or queued in the pool, and
its time is counted from the moment that it was handed over.  A job can thus run out of time before
its executor has done anything.  As only executors that were handed over are at work, a bound on how
many of those there are bounds the ones at work.

A run is a machine that goes on by actions, of which several may be possible at a time: which one
comes next is not decided here.  Every order of actions leads to the same report, up to the moment of
cancellation.
-/

namespace CodeReview

/-- How a job comes out. -/
inductive Outcome where
  | issues (found : List Issue)
  | failed (text : String)
  | crashed (text : String)
  | timedOut (milliseconds : Nat)
deriving DecidableEq, Repr

/-- What comes of a step with that outcome: its issues under its name, or its error. -/
def Outcome.result (step : String) : Outcome → Except StepError (List Issue)
  | .issues found => .ok (found.map fun i => i.fromStep step)
  | .failed text => .error (.failed step text)
  | .crashed text => .error (.crashed step text)
  | .timedOut milliseconds => .error (.timedOut step milliseconds)

/-- When an executor does what, counted from the moment that it is handed over: when it cancels the
run, when it returns, and when it is out of time.  Only a clock looks at it. -/
structure Pace where
  cancels : List Nat := []
  returns : Option Nat := some 0
  expires : Option Nat := none
deriving DecidableEq, Repr

/-- A step that is to be carried out, with the outcome that it will have. -/
structure Job where
  step : String
  outcome : Outcome
  pace : Pace := {}
deriving DecidableEq, Repr

/-- What comes of a job. -/
def Job.result (j : Job) : Except StepError (List Issue) :=
  j.outcome.result j.step

def Job.runsOut (j : Job) : Bool :=
  match j.outcome with
  | .timedOut _ => true
  | _ => false

/-- How far a dispatched job is. -/
inductive JobPhase where
  /-- It has a slot, and its executor is not handed over. -/
  | dispatched
  /-- Its executor is handed over to the pool: it waits there or is at work. -/
  | running
  /-- Its executor has returned. -/
  | returned
  /-- It is settled as out of time, and its executor, still in the pool, has not returned. -/
  | overdue
  /-- It is settled, and its executor has returned. -/
  | settled
deriving DecidableEq, Repr

namespace JobPhase

def holdsSlot : JobPhase → Bool
  | .dispatched | .running | .overdue => true
  | .returned | .settled => false

/-- Whether the executor of a job is handed over and has not returned. -/
def executes : JobPhase → Bool
  | .running | .overdue => true
  | .dispatched | .returned | .settled => false

def isSettled : JobPhase → Bool
  | .overdue | .settled => true
  | .dispatched | .running | .returned => false

end JobPhase

/-- What dispatching is about to do. -/
inductive Dispatch where
  /-- Look at the signal and go on to the next job. -/
  | looking
  /-- Wait for a slot for the next job. -/
  | waiting
  /-- Nothing more: all jobs are dispatched or skipped. -/
  | closed
deriving DecidableEq, Repr

/-- A run under way. -/
structure Run where
  workers : Nat
  jobs : List Job
  /-- How far the jobs are that were dispatched: the first ones, in order. -/
  phases : List JobPhase
  dispatch : Dispatch
  signal : Bool
  cancelled : Bool
  tracker : ProgressTracker Unit
  telemetry : Telemetry

/-- What can happen in a run. -/
inductive Action where
  /-- Dispatching goes on. -/
  | advance
  /-- The executor of a job is handed over to the pool. -/
  | start (job : Nat)
  /-- The executor of a job returns. -/
  | finish (job : Nat)
  /-- The result of a job whose executor has returned is settled. -/
  | settle (job : Nat)
  /-- A job is out of time, counted from when its executor was handed over. -/
  | expire (job : Nat)
  /-- Someone cancels the run. -/
  | cancel
deriving DecidableEq, Repr

namespace Run

/-- Begin a run.  Of several jobs for one step the first counts, and there is at least one worker. -/
def begin (workers : Nat) (signal : Bool) (telemetry : Telemetry) (jobs : List Job) : Run :=
  let jobs := distinctBy Job.step jobs
  { workers := max workers 1
    jobs := jobs
    phases := []
    dispatch := .looking
    signal := signal
    cancelled := false
    tracker := ProgressTracker.ofSteps (jobs.map Job.step)
    telemetry := telemetry.enter.report (.runStarted jobs.length) }

/-- How many slots are held. -/
def busy (r : Run) : Nat :=
  r.phases.countP JobPhase.holdsSlot

/-- How many executors are handed over and have not returned: those at work, and those that wait in
the pool. -/
def executing (r : Run) : Nat :=
  r.phases.countP JobPhase.executes

/-- Put a job into another phase. -/
def setPhase (r : Run) (job : Nat) (phase : JobPhase) : Run :=
  { r with phases := r.phases.set job phase }

/-- Skip a job: count it if it was still pending. -/
def skip (r : Run) (j : Job) : Run :=
  match r.tracker.skip j.step () with
  | .ok tracker => { r with tracker := tracker, telemetry := r.telemetry.count .stepsSkipped }
  | .error _ => r

/-- Skip all jobs that are not dispatched, and close. -/
def skipRest (r : Run) : Run :=
  { (r.jobs.drop r.phases.length).foldl skip r with dispatch := .closed, cancelled := true }

/-- Dispatching goes on, unless it is closed or waits for a slot in vain. -/
def advance (r : Run) : Option Run :=
  match r.dispatch with
  | .closed => none
  | .looking =>
    if r.jobs.length ≤ r.phases.length then some { r with dispatch := .closed }
    else if r.signal then some r.skipRest
    else some { r with dispatch := .waiting }
  | .waiting =>
    if r.workers ≤ r.busy then none
    else if r.signal then some r.skipRest
    else some { r with dispatch := .looking, phases := r.phases ++ [.dispatched] }

/-- Note that the step of a job has begun. -/
def noteStart (r : Run) (j : Job) : Run :=
  match r.tracker.start j.step () with
  | .ok tracker => { r with tracker := tracker }
  | .error e => { r with telemetry := r.telemetry.report (.startRejected j.step e.message) }

def noteResult (r : Run) (j : Job) : Run :=
  match j.result with
  | .ok issues =>
    { r with
      tracker := (r.tracker.complete j.step ()).toOption.getD r.tracker
      telemetry := (r.telemetry.count .stepsExecuted).report (.stepFinished j.step issues.length) }
  | .error e =>
    { r with
      tracker := (r.tracker.fail j.step e.message ()).toOption.getD r.tracker
      telemetry :=
        ((r.telemetry.count .stepsExecuted).count .stepsFailed).report
          (.stepFailed j.step e.message) }

/-- The executor of a job is handed over to the pool. -/
def start (r : Run) (job : Nat) : Option Run :=
  match r.jobs[job]?, r.phases[job]? with
  | some j, some .dispatched => some ((r.noteStart j).setPhase job .running)
  | _, _ => none

/-- The executor of a job returns: in time, or after the job was settled as out of time. -/
def finish (r : Run) (job : Nat) : Option Run :=
  match r.jobs[job]?, r.phases[job]? with
  | some j, some .running => if j.runsOut then none else some (r.setPhase job .returned)
  | some _, some .overdue => some (r.setPhase job .settled)
  | _, _ => none

/-- The result of a returned job is settled. -/
def settle (r : Run) (job : Nat) : Option Run :=
  match r.jobs[job]?, r.phases[job]? with
  | some j, some .returned => some ((r.noteResult j).setPhase job .settled)
  | _, _ => none

/-- A job that will not return in time is settled as out of time, whether its executor is at work or
still waits in the pool. -/
def expire (r : Run) (job : Nat) : Option Run :=
  match r.jobs[job]?, r.phases[job]? with
  | some j, some .running =>
    if j.runsOut then some ((r.noteResult j).setPhase job .overdue) else none
  | _, _ => none

/-- The run after an action, if the action is possible. -/
def act (r : Run) : Action → Option Run
  | .advance => r.advance
  | .start job => r.start job
  | .finish job => r.finish job
  | .settle job => r.settle job
  | .expire job => r.expire job
  | .cancel => some { r with signal := true }

/-- The run after several actions, if each is possible in turn. -/
def actAll (r : Run) (as : List Action) : Option Run :=
  as.foldlM act r

/-- Whether a run is over: nothing is left to dispatch and every result is settled. -/
def isOver (r : Run) : Bool :=
  r.dispatch = .closed && r.phases.all JobPhase.isSettled

/-- The jobs whose results are settled. -/
def settledJobs (r : Run) : List Job :=
  ((r.jobs.zip r.phases).filter fun p => p.2.isSettled).map Prod.fst

def issuesOf (j : Job) : List Issue :=
  match j.result with
  | .ok issues => issues
  | .error _ => []

/-- The failure that a job contributes, if it failed. -/
def failureOf? (j : Job) : Option StepFailure :=
  match j.result with
  | .ok _ => none
  | .error e => some (StepFailure.ofError e)

def report (r : Run) : RunReport where
  issues := r.settledJobs.flatMap issuesOf
  progress := r.tracker.records
  failures := r.settledJobs.filterMap failureOf?
  cancelled := r.cancelled

/-- The telemetry of a run that is over, the end of the run included. -/
def closing (r : Run) : Telemetry :=
  (r.telemetry.report
    (.runFinished r.report.issues.length r.report.failures.length r.cancelled)).leave

end Run

end CodeReview

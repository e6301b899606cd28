import CodeReview.Run.Machine

/-!
# Runs by the clock

A clock decides what comes next in a run.  What needs no time comes first: dispatching, then starting
what is dispatched, which gets a thread of the pool at once, then settling what has returned.  Then the
next appointment comes: executors cancel, return and run out of time at the moments that their pace
says.  At one moment cancelling comes before returning, and returning before running out of time.
-/

namespace CodeReview

/-- An action at a moment, with its precedence among those of the same moment. -/
structure Appointment where
  time : Nat
  precedence : Nat
  action : Action
deriving DecidableEq, Repr

/-- Whether an appointment comes strictly before another one. -/
def Appointment.before (a b : Appointment) : Bool :=
  a.time < b.time || (a.time = b.time && a.precedence < b.precedence)

/-- The moment, and the appointments that are left, in the order they were made. -/
structure Clock where
  now : Nat := 0
  agenda : List Appointment := []
deriving DecidableEq, Repr, Inhabited

namespace Clock

/-- The appointments of a job whose executor is handed over at a moment. -/
def appointments (now job : Nat) (p : Pace) : List Appointment :=
  p.cancels.map (fun t => ⟨now + t, 0, .cancel⟩) ++
    p.returns.toList.map (fun t => ⟨now + t, 1, .finish job⟩) ++
    p.expires.toList.map (fun t => ⟨now + t, 2, .expire job⟩)

/-- The earliest of some appointments, the first one of several, and the others. -/
def takeEarliest : List Appointment → Option (Appointment × List Appointment)
  | [] => none
  | a :: as =>
    match takeEarliest as with
    | none => some (a, [])
    | some (b, bs) => if b.before a then some (b, a :: bs) else some (a, as)

def firstIn (r : Run) (phase : JobPhase) : Option Nat :=
  r.phases.findIdx? fun p => p = phase

def starting (c : Clock) (r : Run) (job : Nat) : Clock :=
  match r.jobs[job]? with
  | some j => { c with agenda := c.agenda ++ appointments c.now job j.pace }
  | none => c

/-- What comes next in a run, if anything does, and the clock after it. -/
def next (c : Clock) (r : Run) : Option (Action × Clock) :=
  if r.advance.isSome then some (.advance, c)
  else match firstIn r .dispatched, firstIn r .returned with
    | some job, _ => some (.start job, c.starting r job)
    | none, some job => some (.settle job, c)
    | none, none =>
      match takeEarliest c.agenda with
      | some (a, rest) => some (a.action, ⟨max c.now a.time, rest⟩)
      | none => none

/-- How many actions a run can still take by a clock, at most. -/
def workLeft (c : Clock) (r : Run) : Nat :=
  c.agenda.length + 1 + r.jobs.foldr (fun j n => 6 + j.pace.cancels.length + n) 0

/-- Let a run go on until it is over, nothing comes next, or that many actions were taken. -/
def driveFor : Nat → Clock → Run → Clock × Run
  | 0, c, r => (c, r)
  | steps + 1, c, r =>
    if r.isOver then (c, r)
    else match c.next r with
      | none => (c, r)
      | some (a, c) =>
        match r.act a with
        | none => (c, r)
        | some r => driveFor steps c r

/-- Let a run go on until it is over or nothing comes next. -/
def drive (c : Clock) (r : Run) : Clock × Run :=
  driveFor (c.workLeft r) c r

/-- The clock when a run is over: of the appointments of executors that have not returned, only their
cancelling concerns anyone. -/
def carryOver (c : Clock) : Clock :=
  { c with agenda := c.agenda.filter fun a => a.action = .cancel }

end Clock

end CodeReview

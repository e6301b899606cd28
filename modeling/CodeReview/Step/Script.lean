import CodeReview.Run.Machine
import CodeReview.Step
import CodeReview.Text.Characters
import CodeReview.Text.Line

/-!
# Scripted steps

A script is a list of instructions that a step carries out over a content.  It collects issues, takes
time, may cancel the run, and ends by returning what it collected, by an error, by a crash, or not at
all.
-/

namespace CodeReview

/-- What an executor does when it is left alone: how it comes out, when it cancels the run, and how
long it takes, in microseconds, if it ends. -/
structure Execution where
  outcome : Outcome
  cancels : List Nat
  duration : Option Nat
deriving DecidableEq, Repr

/-- Whether an execution lasts longer than a limit. -/
def Execution.exceeds (e : Execution) (limit : Nat) : Bool :=
  match e.duration with
  | some d => limit < d
  | none => true

/-- The job of a step, given its execution and the time it may take. -/
def Execution.job (e : Execution) (step : String) (timeout : Option Nat) : Job :=
  match timeout with
  | none => ⟨step, e.outcome, ⟨e.cancels, e.duration, none⟩⟩
  | some limit =>
    if e.exceeds limit then
      ⟨step, .timedOut (limit / 1000), ⟨e.cancels, e.duration, some limit⟩⟩
    else ⟨step, e.outcome, ⟨e.cancels, e.duration, none⟩⟩

/-- An instruction of a script. -/
inductive Instruction where
  /-- Raise an issue. -/
  | issue (i : Issue)
  /-- Raise an issue for every line that contains a text. -/
  | find (text : String)
  /-- Raise an issue that tells the context. -/
  | context
  /-- End with an error, the outermost description first. -/
  | fail (chain : List String)
  /-- End with a crash. -/
  | crash (text : String)
  /-- Cancel the run. -/
  | cancel
  /-- Take that many milliseconds. -/
  | sleep (milliseconds : Nat)
  /-- Do not return. -/
  | hang
deriving DecidableEq, Repr

/-- Instructions in order. -/
abbrev Script := List Instruction

namespace Script

/-- Whether a text occurs inside another one. -/
def occursIn (part : List Char) : List Char → Bool
  | [] => part.isEmpty
  | c :: cs => part.isPrefixOf (c :: cs) || occursIn part cs

/-- The issues for the lines that contain a text, lines counted from `n`. -/
def findings (text : String) (n : Nat) : List String → List Issue
  | [] => []
  | l :: ls =>
    if occursIn text.toList l.toList then
      { description := l, severity := .medium, category := .quality, line := some n } ::
        findings text (n + 1) ls
    else findings text (n + 1) ls

/-- What is said about the context of a content. -/
def contextText (content : String) (context : StepContext) : String :=
  let path := (context.filePath.map Path.text).getD ""
  let metadata := context.metadata.entries.map fun e => e.1 ++ "=" ++ e.2
  "|".intercalate
    [path, context.language.getD "", ",".intercalate metadata, decimal content.utf8ByteSize]

/-- The crash text for a crash that says nothing. -/
def silentCrash : String :=
  "non-string panic payload"

/-- Carry out a script that has collected issues, has cancelled at some moments and has taken some
time. -/
def performFrom (mayCancel : Bool) (content : String) (context : StepContext)
    (found : List Issue) (cancels : List Nat) (time : Nat) : Script → Execution
  | [] => ⟨.issues found, cancels, some time⟩
  | .issue i :: rest => performFrom mayCancel content context (found ++ [i]) cancels time rest
  | .find text :: rest =>
    performFrom mayCancel content context (found ++ findings text 1 (linesOf content)) cancels time
      rest
  | .context :: rest =>
    let i : Issue :=
      { description := contextText content context, severity := .low, category := .other }
    performFrom mayCancel content context (found ++ [i]) cancels time rest
  | .fail chain :: _ => ⟨.failed (": ".intercalate chain), cancels, some time⟩
  | .crash text :: _ => ⟨.crashed text, cancels, some time⟩
  | .cancel :: rest =>
    performFrom mayCancel content context found
      (if mayCancel then cancels ++ [time] else cancels) time rest
  | .sleep milliseconds :: rest =>
    performFrom mayCancel content context found cancels (time + 1000 * milliseconds) rest
  | .hang :: _ => ⟨.issues found, cancels, none⟩

/-- Carry out a script over a content; `mayCancel` says whether its cancelling reaches the run. -/
def perform (s : Script) (mayCancel : Bool) (content : String) (context : StepContext) : Execution :=
  performFrom mayCancel content context [] [] 0 s

end Script

def scriptedJobs (steps : List (Step Script)) (mayCancel : Bool) (timeout : Option Nat)
    (context : StepContext) (content : String) : List Job :=
  steps.map fun s => (s.executor.perform mayCancel content context).job s.id timeout

end CodeReview

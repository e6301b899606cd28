import CodeReview.Telemetry
import CodeReview.Text.Characters
import CodeReview.Version

/-!
# Log formats

How a log is written, and where a program finds the format it is to use.  A program has one log: a
log that was installed stays, and installing another one has no effect.
-/

namespace CodeReview

/-- How a log is written. -/
inductive LogFormat where
  | text
  | json
deriving DecidableEq, Repr, Inhabited

namespace LogFormat

def name : LogFormat → String
  | .text => "text"
  | .json => "json"

/-- Read a format without regard to case and surrounding blanks; the error says what was read. -/
def parse (text : String) : Except String LogFormat :=
  let name := lowerAsciiText (trim text)
  if name = "text" ∨ name = "pretty" then .ok .text
  else if name = "json" then .ok .json
  else .error ("unknown log format: " ++ name)

/-- The format that a variable asks for; text if it is missing or names no format. -/
def ofEnvironment (e : Environment) : LogFormat :=
  match e.get? "VAAHAI_LOG_FORMAT" with
  | none => .text
  | some raw => (parse raw).toOption.getD .text

end LogFormat

/-- The log of a program: its format and the lowest level that is written. -/
structure Log where
  format : LogFormat
  level : Level
deriving DecidableEq, Repr

/-- Install a log.  The result says whether it is in use, and which log is. -/
def Log.install (current : Option Log) (log : Log) : Bool × Log :=
  match current with
  | some old => (false, old)
  | none => (true, log)

end CodeReview

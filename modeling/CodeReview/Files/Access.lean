import CodeReview.Path
import CodeReview.Text.Characters

/-!
# Access to files

What a review and a change manager may ask of a file system: read, write, test, remove, and make
directories.  A call answers with a value or with the cause of its failure.  It may also crash, which
ends everything that was under way; the state of the files that the crash left behind is kept.
-/

namespace CodeReview

/-- A refusal by the operating system. -/
inductive SystemError where
  | noEntry
  | busy
  | alreadyThere
  | notDirectory
  | isDirectory
  | invalidArgument
  | nameTooLong
deriving DecidableEq, Repr

namespace SystemError

/-- The number of a refusal. -/
def number : SystemError → Nat
  | .noEntry => 2
  | .busy => 16
  | .alreadyThere => 17
  | .notDirectory => 20
  | .isDirectory => 21
  | .invalidArgument => 22
  | .nameTooLong => 36

/-- The description of a refusal. -/
def description : SystemError → String
  | .noEntry => "No such file or directory"
  | .busy => "Device or resource busy"
  | .alreadyThere => "File exists"
  | .notDirectory => "Not a directory"
  | .isDirectory => "Is a directory"
  | .invalidArgument => "Invalid argument"
  | .nameTooLong => "File name too long"

/-- The text of a refusal. -/
def message (e : SystemError) : String :=
  e.description ++ " (os error " ++ decimal e.number ++ ")"

end SystemError

/-- Why a call on files failed. -/
inductive FileError where
  /-- There is no file at the path. -/
  | missing (path : Path)
  /-- The file may not be read. -/
  | unreadable (path : Path)
  /-- The file may not be written. -/
  | writeRefused (path : Path)
  /-- A fault that was asked for. -/
  | injected (text : String)
  /-- The operating system refused. -/
  | system (cause : SystemError)
  /-- The file holds no text. -/
  | notText
  /-- The path holds a null character. -/
  | nullInName
  /-- The file that was to take the place of the old one could not be made. -/
  | staging (cause : FileError)
  /-- A backup is not the text it was recorded as. -/
  | digestMismatch
deriving DecidableEq, Repr

/-- The sort of a failure. -/
inductive FileErrorKind where
  | notFound
  | permissionDenied
  | alreadyExists
  | notDirectory
  | isDirectory
  | busy
  | invalidName
  | invalidInput
  | invalidData
  | other
deriving DecidableEq, Repr

/-- The sort of a refusal. -/
def SystemError.kind : SystemError → FileErrorKind
  | .noEntry => .notFound
  | .busy => .busy
  | .alreadyThere => .alreadyExists
  | .notDirectory => .notDirectory
  | .isDirectory => .isDirectory
  | .invalidArgument => .invalidInput
  | .nameTooLong => .invalidName

namespace FileError

/-- The sort of a failure. -/
def kind : FileError → FileErrorKind
  | .missing _ => .notFound
  | .unreadable _ => .permissionDenied
  | .writeRefused _ => .other
  | .injected _ => .other
  | .system cause => cause.kind
  | .notText => .invalidData
  | .nullInName => .invalidInput
  | .staging cause => cause.kind
  | .digestMismatch => .invalidData

/-- The text of a failure. -/
def message : FileError → String
  | .missing path => path.text
  | .unreadable path => "unreadable: " ++ path.text
  | .writeRefused path => "injected write failure: " ++ path.text
  | .injected text => text
  | .system cause => cause.message
  | .notText => "stream did not contain valid UTF-8"
  | .nullInName => "file name contained an unexpected NUL byte"
  | .staging cause => cause.message
  | .digestMismatch => "backup digest mismatch"

end FileError

/-- An abrupt end, with what was said about it. -/
structure Crash where
  text : String
deriving DecidableEq, Repr

/-- A computation on a state that may crash; a crash keeps the state it happened in. -/
abbrev Attempt (σ α : Type) := EStateM Crash σ α

/-- An attempt on the first of two states; the second stays as it is. -/
def Attempt.onFirst {σ τ α : Type} (act : Attempt σ α) : Attempt (σ × τ) α := fun s =>
  match act s.1 with
  | .ok a t => .ok a (t, s.2)
  | .error e t => .error e (t, s.2)

/-- A state that holds files. -/
class FileAccess (σ : Type) where
  /-- The text of a file. -/
  read : Path → Attempt σ (Except FileError String)
  /-- Make a text the contents of a file, whether it existed or not. -/
  write : Path → String → Attempt σ (Except FileError Unit)
  /-- Whether there is something at a path. -/
  present : Path → Attempt σ Bool
  /-- Remove a file. -/
  remove : Path → Attempt σ (Except FileError Unit)
  /-- Make a directory and those it lies in. -/
  makeDirs : Path → Attempt σ (Except FileError Unit)
  /-- How many different paths there can be something at. -/
  occupied : σ → Nat

end CodeReview

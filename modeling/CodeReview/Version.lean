import CodeReview.Path

/-!
# Version and environment

What a program is started with: its version, its variables, and the home directory that the account has
if no variable says otherwise.
-/

namespace CodeReview

/-- The version of the program. -/
def version : String := "0.1.0"

/-- The variables of a program by name, and the home directory of its account. -/
structure Environment where
  bindings : List (String × String)
  accountHome : Option String
deriving Repr, Inhabited

namespace Environment

/-- The value of a variable. -/
def get? (e : Environment) (name : String) : Option String :=
  (e.bindings.find? fun v => v.1 = name).map Prod.snd

/-- The home directory: the variable `HOME` unless it is missing or empty, then that of the
account. -/
def home? (e : Environment) : Option Path :=
  match e.get? "HOME" with
  | some dir => if dir = "" then e.accountHome.map Path.mk else some ⟨dir⟩
  | none => e.accountHome.map Path.mk

end Environment

end CodeReview

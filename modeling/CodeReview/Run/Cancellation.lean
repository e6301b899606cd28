/-!
# Cancelling

A handle cancels, and any number of signals that belong to it tell whether it did.  All signals tell
the same.  Once cancelled stays cancelled, and dropping the handle cancels nothing.
-/

namespace CodeReview

/-- A handle with its signals. -/
structure Cancellation where
  requested : Bool
  handleHeld : Bool
  signals : Nat
deriving DecidableEq, Repr

namespace Cancellation

/-- A new handle with one signal. -/
def new : Cancellation :=
  ⟨false, true, 1⟩

/-- Cancel by the handle, if it is still held. -/
def cancel (c : Cancellation) : Cancellation :=
  { c with requested := c.requested || c.handleHeld }

/-- Take another signal from the handle, if it is still held. -/
def addSignal (c : Cancellation) : Cancellation :=
  if c.handleHeld then { c with signals := c.signals + 1 } else c

def copySignal (c : Cancellation) : Cancellation :=
  { c with signals := c.signals + 1 }

def dropHandle (c : Cancellation) : Cancellation :=
  { c with handleHeld := false }

/-- What each signal tells. -/
def seen (c : Cancellation) : List Bool :=
  List.replicate c.signals c.requested

end Cancellation

end CodeReview

import CodeReview.Files.Access
import CodeReview.Stamp

/-!
# Files with faults

A layer over any files that lets chosen calls fail or crash before they do anything.  Each fault says
which call it strikes, on which paths, after how many calls and how often.  The first fault in order
that is left and fits a call decides about it.
-/

namespace CodeReview

/-- The calls that a fault can strike. -/
inductive FileCall where
  | read
  | write
  | present
  | remove
  | makeDirs
deriving DecidableEq, Repr

/-- What a fault does to a call. -/
inductive FaultEffect where
  | fail (text : String)
  | crash (text : String)
deriving DecidableEq, Repr

/-- A fault: it lets `skip` calls pass and strikes the next `times` ones, or all if there is no
limit, on paths whose text, with its stamps masked, begins with `start`. -/
structure Fault where
  call : FileCall
  start : String
  skip : Nat
  times : Option Nat
  effect : FaultEffect
deriving Repr

namespace Fault

def fits (f : Fault) (call : FileCall) (p : Path) : Bool :=
  f.call = call && f.times ≠ some 0 && f.start.toList.isPrefixOf (Stamp.mask p.text).toList

/-- One call on a fault that fits it: what it does to the call, if anything, and the fault that
remains. -/
def spend (f : Fault) : Option FaultEffect × Fault :=
  if f.skip = 0 then (some f.effect, { f with times := f.times.map (· - 1) })
  else (none, { f with skip := f.skip - 1 })

/-- The effect of the first fault that fits a call, and the faults that remain. -/
def strike (call : FileCall) (p : Path) : List Fault → Option FaultEffect × List Fault
  | [] => (none, [])
  | f :: fs =>
    if f.fits call p then
      let (effect, f) := f.spend
      (effect, f :: fs)
    else
      let (effect, fs) := strike call p fs
      (effect, f :: fs)

end Fault

/-- Files below a list of faults. -/
structure FaultyFiles (σ : Type) where
  files : σ
  faults : List Fault

namespace FaultyFiles

variable {σ : Type}

def below {α : Type} (act : Attempt σ α) : Attempt (FaultyFiles σ) α := fun s =>
  match act s.files with
  | .ok a files => .ok a { s with files := files }
  | .error e files => .error e { s with files := files }

/-- A call that the faults may strike first; `struck` says what a failing call answers. -/
def guarded {α : Type} (call : FileCall) (p : Path) (struck : String → α) (act : Attempt σ α) :
    Attempt (FaultyFiles σ) α := do
  let (effect, faults) := Fault.strike call p (← get).faults
  modify fun s => { s with faults := faults }
  match effect with
  | none => below act
  | some (.fail text) => return struck text
  | some (.crash text) => throw ⟨text⟩

/-- Add a fault behind the others. -/
def addFault (s : FaultyFiles σ) (f : Fault) : FaultyFiles σ :=
  { s with faults := s.faults ++ [f] }

/-- How many calls a fault without limit is reckoned to answer.  Paths that differ only in a number of
six digits are so many, so the count outlasts every fault that spares one of them. -/
def reckoned : Nat := 1000000

/-- How many calls of `present` the faults are reckoned to answer by themselves. -/
def feigned (faults : List Fault) : Nat :=
  (faults.filter fun f => f.call = .present).foldr (fun f n => f.times.getD reckoned + n) 0

instance [FileAccess σ] : FileAccess (FaultyFiles σ) where
  read p := guarded .read p (fun text => .error (.injected text)) (FileAccess.read p)
  write p text := guarded .write p (fun t => .error (.injected t)) (FileAccess.write p text)
  present p := guarded .present p (fun _ => true) (FileAccess.present p)
  remove p := guarded .remove p (fun text => .error (.injected text)) (FileAccess.remove p)
  makeDirs p := guarded .makeDirs p (fun text => .error (.injected text)) (FileAccess.makeDirs p)
  occupied s := FileAccess.occupied s.files + feigned s.faults

end FaultyFiles

end CodeReview

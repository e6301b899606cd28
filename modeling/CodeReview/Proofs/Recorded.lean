import CodeReview.Proofs.Agreement
import CodeReview.Proofs.Conduct

/-!
# Recorded calls

Files that keep a list of the calls that were made to change them, with their answers.  Nothing else
looks at the list, so an operation over recorded files is, with the list left out, the operation over
the files themselves (`apply_mirrors`).  In this way the calls that an operation makes can be spoken
of for any files (`applyCalls`).
-/

namespace CodeReview

/-! ## Attempts seen through a function -/

namespace Attempt

variable {σ τ α : Type} {f : τ → σ}

/-- What an attempt does to a state is, seen through `f`, what another does to its image. -/
def Mirrors (f : τ → σ) (x : Attempt τ α) (y : Attempt σ α) : Prop :=
  ∀ s, y (f s) = match x s with
    | .ok a t => .ok a (f t)
    | .error e t => .error e (f t)

namespace Mirrors

variable {x : Attempt τ α} {y : Attempt σ α}

theorem ok (h : Mirrors f x y) {s t : τ} {a : α} (hrun : x s = .ok a t) :
    y (f s) = .ok a (f t) := by
  rw [h s, hrun]

theorem error (h : Mirrors f x y) {s t : τ} {e : Crash} (hrun : x s = .error e t) :
    y (f s) = .error e (f t) := by
  rw [h s, hrun]

end Mirrors

end Attempt

/-! ## Files with their calls -/

/-- A call to change a file and its answer; a call that crashed has none. -/
inductive Call where
  | write (p : Path) (text : String) (answer : Option (Except FileError Unit))
  | remove (p : Path) (answer : Option (Except FileError Unit))

def Call.path : Call → Path
  | write p _ _ => p
  | remove p _ => p

/-- Files with the calls that were made to change them, the latest last. -/
structure Recorded (σ : Type) where
  files : σ
  calls : List Call

namespace Recorded

variable {σ α : Type}

/-- A call on the files, and what is recorded of its answer. -/
def calling (call : Option α → List Call) (act : Attempt σ α) : Attempt (Recorded σ) α := fun s =>
  match act s.files with
  | .ok a files => .ok a ⟨files, s.calls ++ call (some a)⟩
  | .error e files => .error e ⟨files, s.calls ++ call none⟩

instance [FileAccess σ] : FileAccess (Recorded σ) where
  read p := calling (fun _ => []) (FileAccess.read p)
  write p text := calling (fun answer => [.write p text answer]) (FileAccess.write p text)
  present p := calling (fun _ => []) (FileAccess.present p)
  remove p := calling (fun answer => [.remove p answer]) (FileAccess.remove p)
  makeDirs p := calling (fun _ => []) (FileAccess.makeDirs p)
  occupied s := FileAccess.occupied s.files

theorem calling_agrees (call : Option α → List Call) (act : Attempt σ α) :
    Attempt.Agree (fun s files => s.files = files) (calling call act) act := by
  rintro s _ rfl
  unfold calling
  cases act s.files with
  | ok a files => exact .ok rfl
  | error e files => exact .error rfl

/-- Recorded files and the files themselves answer all calls alike. -/
theorem coupled [FileAccess σ] :
    FileAccess.Coupled fun (s : Recorded σ) (files : σ) => s.files = files where
  read _ := calling_agrees _ _
  write _ _ := calling_agrees _ _
  present _ := calling_agrees _ _
  remove _ := calling_agrees _ _
  makeDirs _ := calling_agrees _ _
  occupied _ _ h := congrArg FileAccess.occupied h

end Recorded

/-! ## Operations over recorded files -/

/-- The vault without the recorded calls. -/
def Vault.plain {σ : Type} (v : Vault (Recorded σ)) : Vault σ :=
  ⟨v.files.files, v.telemetry, v.store⟩

namespace Manager

variable {σ : Type}

/-- The manager without the recorded calls. -/
def plain (m : Manager (Recorded σ)) : Manager σ :=
  ⟨m.config, m.vault.plain, m.history, m.undoStack, m.pending, m.issued, m.recordId⟩

/-- The manager over its files with no call recorded yet. -/
def listening (m : Manager σ) : Manager (Recorded σ) :=
  ⟨m.config, ⟨⟨m.vault.files, []⟩, m.vault.telemetry, m.vault.store⟩, m.history, m.undoStack,
    m.pending, m.issued, m.recordId⟩

theorem eq_plain {m : Manager (Recorded σ)} {n : Manager σ}
    (h : Like (fun s files => s.files = files) Eq m n) (hpending : m.pending = n.pending) :
    n = m.plain := by
  obtain ⟨config, ⟨files, telemetry, store⟩, history, stack, pending, issued, recordId⟩ := n
  obtain ⟨⟨rfl, rfl, rfl⟩, rfl, rfl, rfl, rfl, rfl⟩ := h
  obtain rfl := hpending
  rfl

variable [FileAccess σ]

/-- Recording the calls changes nothing else about the application of a request. -/
theorem apply_mirrors (q : ChangeRequest) :
    Attempt.Mirrors (@plain σ) (apply q) (apply q) := by
  intro m
  have hsame : Telemetry.Coupled Eq := ⟨fun _ h => h ▸ rfl, fun _ h => h ▸ rfl⟩
  let like : Manager (Recorded σ) → Manager σ → Prop := Like (fun s files => s.files = files) Eq
  have hagree : Attempt.Agree like (apply q) (apply q) := apply_agrees Recorded.coupled hsame q
  have hlike : like m m.plain := ⟨⟨rfl, rfl, rfl⟩, rfl, rfl, rfl, rfl, rfl⟩
  have hbatch := conduct_sameBatch.apply q m
  have hbatch' := conduct_sameBatch.apply q m.plain
  cases hrun : apply q m with
  | ok a k =>
    obtain ⟨k', hrun', hlike'⟩ := hagree.ok hlike hrun
    have hpending := (hbatch.of_ok hrun).pending.trans (hbatch'.of_ok hrun').pending.symm
    rw [hrun', eq_plain hlike' hpending]
  | error e k =>
    obtain ⟨k', hrun', hlike'⟩ := hagree.error hlike hrun
    have hpending := (hbatch.of_error hrun).pending.trans (hbatch'.of_error hrun').pending.symm
    rw [hrun', eq_plain hlike' hpending]

/-- The calls that the application of a request makes to change files. -/
def applyCalls (q : ChangeRequest) (m : Manager σ) : List Call :=
  ((apply q).endState m.listening).vault.files.calls

end Manager

end CodeReview

import CodeReview.Change.Manager

/-!
# Running attempts

What the parts of an attempt do to a given state.  A computation that ends is peeled off a sequence
by `bind_of_ok`; the embeddings of files into a vault and of a vault into a manager pass the outcome
on and change nothing else.
-/

namespace CodeReview

namespace Attempt

variable {σ α β : Type}

theorem bind_of_ok {x : Attempt σ α} {f : α → Attempt σ β} {s t : σ} {a : α}
    (h : x s = .ok a t) : (x >>= f) s = f a t := by
  change EStateM.bind x f s = f a t
  unfold EStateM.bind
  rw [h]

theorem bind_of_error {x : Attempt σ α} {f : α → Attempt σ β} {s t : σ} {e : Crash}
    (h : x s = .error e t) : (x >>= f) s = .error e t := by
  change EStateM.bind x f s = .error e t
  unfold EStateM.bind
  rw [h]

@[simp] theorem pure_run (a : α) (s : σ) : (pure a : Attempt σ α) s = .ok a s :=
  rfl

@[simp] theorem get_run (s : σ) : (get : Attempt σ σ) s = .ok s s :=
  rfl

@[simp] theorem modifyGet_run (f : σ → α × σ) (s : σ) :
    (modifyGet f : Attempt σ α) s = .ok (f s).1 (f s).2 :=
  rfl

/-- A computation that ends is not caught. -/
theorem tryCatch_of_ok {x : Attempt σ α} {handle : Crash → Attempt σ α} {s t : σ} {a : α}
    (h : x s = .ok a t) : (tryCatch x handle : Attempt σ α) s = .ok a t := by
  change EStateM.tryCatch x handle s = .ok a t
  unfold EStateM.tryCatch
  rw [h]

/-- The state that a computation leaves behind, whether it ends or crashes. -/
def endState (act : Attempt σ α) (s : σ) : σ :=
  match act s with
  | .ok _ t => t
  | .error _ t => t

theorem endState_of_ok {act : Attempt σ α} {s t : σ} {a : α} (h : act s = .ok a t) :
    act.endState s = t := by
  unfold endState
  rw [h]

theorem endState_of_error {act : Attempt σ α} {s t : σ} {e : Crash} (h : act s = .error e t) :
    act.endState s = t := by
  unfold endState
  rw [h]

/-- What a computation answers, if it does not crash. -/
def answer? (act : Attempt σ α) (s : σ) : Option α :=
  match act s with
  | .ok a _ => some a
  | .error .. => none

theorem answer?_of_ok {act : Attempt σ α} {s t : σ} {a : α} (h : act s = .ok a t) :
    act.answer? s = some a := by
  unfold answer?
  rw [h]

/-- An attempt that never crashes. -/
def Answers (act : Attempt σ α) : Prop :=
  ∀ s, ∃ a t, act s = .ok a t

theorem not_answers {act : Attempt σ α} {s t : σ} {e : Crash} (hrun : act s = .error e t) :
    ¬ act.Answers := by
  intro h
  obtain ⟨a, u, hok⟩ := h s
  rw [hrun] at hok
  cases hok

theorem Answers.bind {act : Attempt σ α} {f : α → Attempt σ β} (h : act.Answers)
    (hf : ∀ a, (f a).Answers) : (act >>= f).Answers := by
  intro s
  obtain ⟨a, t, hrun⟩ := h s
  rw [bind_of_ok hrun]
  exact hf a t

end Attempt

theorem Vault.onFiles_of_ok {σ α : Type} {act : Attempt σ α} {v : Vault σ} {a : α} {files : σ}
    (h : act v.files = .ok a files) :
    Vault.onFiles act v = .ok a { v with files := files } := by
  unfold Vault.onFiles
  rw [h]

theorem Manager.inVault_of_ok {σ α : Type} {act : Attempt (Vault σ) α} {m : Manager σ} {a : α}
    {vault : Vault σ} (h : act m.vault = .ok a vault) :
    Manager.inVault act m = .ok a { m with vault := vault } := by
  unfold Manager.inVault
  rw [h]

theorem Manager.inVault_of_error {σ α : Type} {act : Attempt (Vault σ) α} {m : Manager σ}
    {e : Crash} {vault : Vault σ} (h : act m.vault = .error e vault) :
    Manager.inVault act m = .error e { m with vault := vault } := by
  unfold Manager.inVault
  rw [h]

section Spans

variable {σ α : Type} {act : Attempt (Manager σ) α} {m k : Manager σ}

theorem Manager.inSpan_of_ok {a : α}
    (h : act { m with vault := { m.vault with telemetry := m.vault.telemetry.enter } } = .ok a k) :
    Manager.inSpan act m =
      .ok a { k with vault := { k.vault with telemetry := k.vault.telemetry.leave } } := by
  unfold Manager.inSpan
  simp only
  rw [h]

theorem Manager.inSpan_of_error {e : Crash}
    (h : act { m with vault := { m.vault with telemetry := m.vault.telemetry.enter } } =
      .error e k) :
    Manager.inSpan act m =
      .error e { k with vault := { k.vault with telemetry := k.vault.telemetry.leave } } := by
  unfold Manager.inSpan
  simp only
  rw [h]

end Spans

end CodeReview

import CodeReview.Proofs.Attempts
import Mathlib.Order.Defs.Unbundled

/-!
# How attempts end

An attempt ends in one of two ways: it answers, or it crashes and leaves a state behind.  `Ends`
states both at once, so one pass over a sequence of calls covers the crashes in the middle of it.
`Within` is the case where both ends are related to the beginning by the same relation; for a
relation that is reflexive and transitive it is enough to look at the parts (`Within.bind`).
-/

namespace CodeReview

namespace Attempt

variable {σ α β : Type} {s t : σ} {a : α}

/-- From a state, an attempt that answers ends as `post` says, and one that crashes leaves a state
behind as `crash` says. -/
def Ends (act : Attempt σ α) (s : σ) (post : α → σ → Prop) (crash : σ → Prop) : Prop :=
  match act s with
  | .ok a t => post a t
  | .error _ t => crash t

variable {act : Attempt σ α} {post post' : α → σ → Prop} {crash crash' : σ → Prop}

theorem ends_of_ok (h : act s = .ok a t) (hpost : post a t) : act.Ends s post crash := by
  unfold Ends
  rw [h]
  exact hpost

namespace Ends

theorem of_ok (h : act.Ends s post crash) (hrun : act s = .ok a t) : post a t := by
  unfold Ends at h
  rw [hrun] at h
  exact h

theorem of_error {e : Crash} (h : act.Ends s post crash) (hrun : act s = .error e t) :
    crash t := by
  unfold Ends at h
  rw [hrun] at h
  exact h

theorem mono (h : act.Ends s post crash) (hpost : ∀ a t, post a t → post' a t)
    (hcrash : ∀ t, crash t → crash' t) : act.Ends s post' crash' := by
  cases hrun : act s with
  | ok a t =>
    exact ends_of_ok hrun (hpost a t (h.of_ok hrun))
  | error e t =>
    unfold Ends
    rw [hrun]
    exact hcrash t (h.of_error hrun)

theorem bind {f : α → Attempt σ β} {post' : β → σ → Prop}
    (h : act.Ends s (fun a t => (f a).Ends t post' crash) crash) :
    (act >>= f).Ends s post' crash := by
  change match EStateM.bind act f s with
    | .ok b u => post' b u
    | .error _ u => crash u
  unfold EStateM.bind
  cases hrun : act s with
  | ok a t => exact h.of_ok hrun
  | error e t => exact h.of_error hrun

/-- A crash is caught in the state that it left behind. -/
theorem tryCatch {handle : Crash → Attempt σ α}
    (h : act.Ends s post fun t => ∀ e, (handle e).Ends t post crash) :
    (tryCatch act handle : Attempt σ α).Ends s post crash := by
  change match EStateM.tryCatch act handle s with
    | .ok b u => post b u
    | .error _ u => crash u
  unfold EStateM.tryCatch
  cases hrun : act s with
  | ok a t => exact h.of_ok hrun
  | error e t => exact h.of_error hrun e

/-- An attempt that crashes is not one that never does. -/
theorem crashed (h : act.Ends s post crash) :
    act.Ends s post fun t => crash t ∧ ¬ act.Answers := by
  cases hrun : act s with
  | ok a t => exact ends_of_ok hrun (h.of_ok hrun)
  | error e t =>
    unfold Ends
    rw [hrun]
    exact ⟨h.of_error hrun, not_answers hrun⟩

theorem endState {P : σ → Prop} (h : act.Ends s (fun _ t => P t) P) : P (act.endState s) := by
  unfold Attempt.endState
  cases hrun : act s with
  | ok a t => exact h.of_ok hrun
  | error e t => exact h.of_error hrun

end Ends

theorem ends_pure (h : post a s) : (pure a : Attempt σ α).Ends s post crash :=
  h

theorem ends_throw (e : Crash) (h : crash s) : (throw e : Attempt σ α).Ends s post crash :=
  h

/-- Whether it answers or crashes, an attempt ends in a state that `R` relates to the first one. -/
def Within (R : σ → σ → Prop) (act : Attempt σ α) : Prop :=
  ∀ s, act.Ends s (fun _ t => R s t) (R s)

section Within

variable {R : σ → σ → Prop} [IsPreorder σ R]

theorem within_pure (a : α) : (pure a : Attempt σ α).Within R := by
  intro s
  exact ends_pure (refl_of R s)

theorem within_throw (e : Crash) : (throw e : Attempt σ α).Within R := by
  intro s
  exact ends_throw e (refl_of R s)

theorem Within.bind {f : α → Attempt σ β} (h : act.Within R) (hf : ∀ a, (f a).Within R) :
    (act >>= f).Within R := by
  intro s
  apply Ends.bind
  refine (h s).mono ?_ fun t hst => hst
  intro a t hst
  exact (hf a t).mono (fun _ u htu => trans_of R hst htu) fun u htu => trans_of R hst htu

omit [IsPreorder σ R] in
theorem within_get_bind {f : σ → Attempt σ β} (hf : ∀ s, (f s).Within R) :
    (get >>= f).Within R := by
  intro s
  exact Ends.bind (ends_of_ok (get_run s) (hf s s))

theorem Within.tryCatch {handle : Crash → Attempt σ α} (h : act.Within R)
    (hhandle : ∀ e, (handle e).Within R) : (tryCatch act handle : Attempt σ α).Within R := by
  intro s
  apply Ends.tryCatch
  refine (h s).mono (fun a t hst => hst) ?_
  intro t hst e
  exact (hhandle e t).mono (fun _ u htu => trans_of R hst htu) fun u htu => trans_of R hst htu

end Within

end Attempt

/-! ## Calls on a part of the state -/

theorem Vault.ends_onFiles {σ α : Type} {act : Attempt σ α} {v : Vault σ}
    {post : α → Vault σ → Prop} {crash : Vault σ → Prop}
    (h : act.Ends v.files (fun a files => post a { v with files := files })
      fun files => crash { v with files := files }) : (Vault.onFiles act).Ends v post crash := by
  unfold Attempt.Ends Vault.onFiles
  cases hrun : act v.files with
  | ok a files => exact h.of_ok hrun
  | error e files => exact h.of_error hrun

theorem Manager.ends_inVault {σ α : Type} {act : Attempt (Vault σ) α} {m : Manager σ}
    {post : α → Manager σ → Prop} {crash : Manager σ → Prop}
    (h : act.Ends m.vault (fun a vault => post a { m with vault := vault })
      fun vault => crash { m with vault := vault }) :
    (Manager.inVault act).Ends m post crash := by
  unfold Attempt.Ends Manager.inVault
  cases hrun : act m.vault with
  | ok a vault => exact h.of_ok hrun
  | error e vault => exact h.of_error hrun

/-- A computation inside a span ends in the states in which it leaves the span. -/
theorem Manager.ends_inSpan {σ α : Type} {act : Attempt (Manager σ) α} {m : Manager σ}
    {post : α → Manager σ → Prop} {crash : Manager σ → Prop}
    (h : act.Ends { m with vault := { m.vault with telemetry := m.vault.telemetry.enter } }
      (fun a k => post a { k with vault := { k.vault with telemetry := k.vault.telemetry.leave } })
      fun k => crash { k with vault := { k.vault with telemetry := k.vault.telemetry.leave } }) :
    (Manager.inSpan act).Ends m post crash := by
  unfold Attempt.Ends
  cases hrun : act { m with vault := { m.vault with telemetry := m.vault.telemetry.enter } } with
  | ok a k =>
    rw [Manager.inSpan_of_ok hrun]
    exact h.of_ok hrun
  | error e k =>
    rw [Manager.inSpan_of_error hrun]
    exact h.of_error hrun

/-- A relation that allows to open and to close a span allows what it allows inside one. -/
theorem Manager.inSpan_within {σ α : Type} {R : Manager σ → Manager σ → Prop}
    [IsPreorder (Manager σ) R]
    (henter : ∀ m, R m { m with vault := { m.vault with telemetry := m.vault.telemetry.enter } })
    (hleave : ∀ m, R m { m with vault := { m.vault with telemetry := m.vault.telemetry.leave } })
    {act : Attempt (Manager σ) α} (h : act.Within R) : (Manager.inSpan act).Within R := by
  intro m
  apply Manager.ends_inSpan
  exact (h _).mono (fun _ k hk => trans_of R (trans_of R (henter m) hk) (hleave k))
    fun k hk => trans_of R (trans_of R (henter m) hk) (hleave k)

end CodeReview

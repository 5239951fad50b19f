import Mathlib.Tactic
import OsLabs.Wlp

/-!
# Runs without an error

A program with checks is an element of `ExceptT ε (StateT σ Option) α`: besides stopping without
returning it may throw an error, when a check has failed. `Passes x s Q` says that no check of `x`
fails from the state `s`, and that the result and the final state satisfy `Q` if it returns. A
program without checks is lifted, and its `Wlp` is all that is needed of it.
-/

namespace OsLabs

variable {ε σ α β : Type}

/-- No check fails, and if the program returns then `Q` holds of the result and the final state. -/
def Passes (x : ExceptT ε (StateT σ Option) α) (s : σ) (Q : α → σ → Prop) : Prop :=
  Wlp x.run s fun r t => ∃ a, r = .ok a ∧ Q a t

namespace Passes

theorem no_error {x : ExceptT ε (StateT σ Option) α} {s : σ} {Q : α → σ → Prop}
    (h : Passes x s Q) (e : ε) (t : σ) : x.run.run s ≠ some (.error e,t) := by
  intro hr
  obtain ⟨a,ha,-⟩ := h _ t hr
  cases ha

theorem mono {x : ExceptT ε (StateT σ Option) α} {s : σ} {Q R : α → σ → Prop} (h : Passes x s Q)
    (hQR : ∀ a t, Q a t → R a t) : Passes x s R :=
  Wlp.mono h fun _ _ ⟨a,ha,hq⟩ => ⟨a,ha,hQR a _ hq⟩

theorem pure {a : α} {s : σ} {Q : α → σ → Prop} (h : Q a s) :
    Passes (pure a : ExceptT ε (StateT σ Option) α) s Q :=
  Wlp.pure_iff.mpr ⟨a,rfl,h⟩

theorem bind {x : ExceptT ε (StateT σ Option) α} {f : α → ExceptT ε (StateT σ Option) β} {s : σ}
    {Q : β → σ → Prop} (h : Passes x s fun a t => Passes (f a) t Q) : Passes (x >>= f) s Q := by
  rw [Passes,ExceptT.run_bind,Wlp.bind_iff]
  refine Wlp.mono h ?_
  rintro r t ⟨a,rfl,ha⟩
  exact ha

/-- A program without checks. -/
theorem lift {m : StateT σ Option α} {s : σ} {Q : α → σ → Prop} (h : Wlp m s Q) :
    Passes (monadLift m : ExceptT ε (StateT σ Option) α) s Q := by
  show Wlp (Except.ok <$> m) s _
  rw [map_eq_pure_bind,Wlp.bind_iff]
  exact h.mono fun a t ha => Wlp.pure_iff.mpr ⟨a,rfl,ha⟩

/-- A program without checks of which nothing is needed. -/
theorem any {m : StateT σ Option α} {s : σ} {Q : α → σ → Prop} (h : ∀ a t, Q a t) :
    Passes (monadLift m : ExceptT ε (StateT σ Option) α) s Q :=
  lift fun a t _ => h a t

theorem read {m : StateT σ Option α} (hm : Keeps m) {s : σ} {Q : α → σ → Prop} (h : ∀ a, Q a s) :
    Passes (monadLift m : ExceptT ε (StateT σ Option) α) s Q :=
  lift ((hm s).mono fun a _ ht => ht ▸ h a)

theorem ite {c : Prop} [Decidable c] {x y : ExceptT ε (StateT σ Option) α} {s : σ}
    {Q : α → σ → Prop} (hx : c → Passes x s Q) (hy : ¬c → Passes y s Q) :
    Passes (if c then x else y) s Q := by
  by_cases hc : c
  · rw [if_pos hc]
    exact hx hc
  · rw [if_neg hc]
    exact hy hc

end Passes
end OsLabs

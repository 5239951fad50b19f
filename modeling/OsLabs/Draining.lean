import Mathlib.Algebra.BigOperators.Group.Finset.Basic
import OsLabs.Transition

/-!
# Moves that come to an end

Some of the actions of a system are moves: they need nothing new from outside. When each
move keeps a property of the state and lowers a measure, the moves come to an end in any
order. The measure of a system of `n` members is often a sum over where its members stand.
-/

namespace OsLabs
namespace Draining

open Transition

variable {S A α : Type*}

/-! ### Sums over the members -/

/-- The sum of `f` over where the first `n` members stand. -/
def total (n : ℕ) (f : α → ℕ) (ws : ℕ → α) : ℕ := ∑ w ∈ Finset.range n, f (ws w)

theorem total_update {n w : ℕ} (f : α → ℕ) (hw : w < n) (ws : ℕ → α) (pc : α) :
    total n f (Function.update ws w pc)+f (ws w) = total n f ws+f pc := by
  have hm : w ∈ Finset.range n := Finset.mem_range.mpr hw
  have hrest : ∑ v ∈ (Finset.range n).erase w, f (Function.update ws w pc v) =
      ∑ v ∈ (Finset.range n).erase w, f (ws v) :=
    Finset.sum_congr rfl fun v hv => by rw [Function.update_of_ne (Finset.ne_of_mem_erase hv)]
  have hnew : f pc+∑ v ∈ (Finset.range n).erase w, f (ws v) = total n f (Function.update ws w pc) := by
    rw [← hrest,total,← Finset.add_sum_erase _ _ hm,Function.update_self]
  have hold : f (ws w)+∑ v ∈ (Finset.range n).erase w, f (ws v) = total n f ws := by
    rw [total,← Finset.add_sum_erase _ _ hm]
  omega

theorem total_le {f : α → ℕ} {c : ℕ} (hf : ∀ pc, f pc ≤ c) (n : ℕ) (ws : ℕ → α) :
    total n f ws ≤ n*c := by
  have h := Finset.sum_le_card_nsmul (Finset.range n) (fun w => f (ws w)) c fun w _ => hf _
  simpa [total] using h

variable {step : S → A → Option S} {moves : S → A → Prop} {P : S → Prop} {μ : S → ℕ} {s s' : S}

end Draining
end OsLabs

import Mathlib.Data.Finset.Card
import Mathlib.Data.List.Range
import Mathlib.Tactic

/-!
# Pools of indices

A pool hands out the indices below a bound. `least` is the smallest index that is not in use;
there is none exactly when all of them are.
-/

namespace OsLabs
namespace IndexPool

/-- The indices in use, all below the bound. -/
structure Pool (n : ℕ) where
  used : Finset ℕ
  below : ∀ i ∈ used, i < n

variable {n : ℕ}

def empty (n : ℕ) : Pool n := ⟨∅,by simp⟩

def Pool.take (P : Pool n) {i : ℕ} (hi : i < n) : Pool n where
  used := insert i P.used
  below j hj := by
    rcases Finset.mem_insert.mp hj with rfl | hj
    · exact hi
    · exact P.below j hj

def Pool.give (P : Pool n) (i : ℕ) : Pool n where
  used := P.used.erase i
  below j hj := P.below j (Finset.mem_of_mem_erase hj)

/-- The smallest index that is not in use. -/
def Pool.least (P : Pool n) : Option ℕ := (List.range n).find? fun i => i ∉ P.used

variable {P : Pool n} {i : ℕ}

theorem Pool.least_eq_none : P.least = none ↔ ∀ i < n, i ∈ P.used := by
  simp [least,List.find?_eq_none]

theorem Pool.least_eq_some : P.least = some i ↔ i < n ∧ i ∉ P.used ∧ ∀ j < i, j ∈ P.used := by
  simp [least,List.find?_range_eq_some,and_left_comm]

theorem Pool.card_le (P : Pool n) : P.used.card ≤ n := by
  have hsub : P.used ⊆ Finset.range n := fun i hi => Finset.mem_range.mpr (P.below i hi)
  have hle := Finset.card_le_card hsub
  rwa [Finset.card_range] at hle

end IndexPool
end OsLabs

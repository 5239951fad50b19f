import Mathlib.Data.Finset.Card
import Mathlib.Data.Fintype.Basic
import Mathlib.Tactic

/-!
# Resources held in slots

Owners hold resources in slots; the value 0 in a slot means that it is empty. `Balanced` says
that the used resources are exactly the held ones and that none is held twice. `assign` puts a
resource into a slot or empties it, and `held` counts the slots that are not empty.
-/

namespace OsLabs
namespace Holdings

variable {ι κ β : Type*}

section Balance

variable [DecidableEq ι] [DecidableEq κ] [Zero β]

/-- Exactly the used resources are held, each in one slot. -/
structure Balanced (hold : ι → κ → β) (used : β → Prop) : Prop where
  covered : ∀ b, used b ↔ b ≠ 0 ∧ ∃ i k, hold i k = b
  unique : ∀ i k j l, hold i k ≠ 0 → hold i k = hold j l → i = j ∧ k = l

def assign (hold : ι → κ → β) (i : ι) (k : κ) (b : β) : ι → κ → β :=
  Function.update hold i (Function.update (hold i) k b)

omit [Zero β] in
theorem assign_self (hold : ι → κ → β) (i : ι) (k : κ) (b : β) : assign hold i k b i k = b := by
  simp [assign]

omit [Zero β] in
theorem assign_of_ne (hold : ι → κ → β) {i j : ι} {k l : κ} (b : β) (h : ¬(j = i ∧ l = k)) :
    assign hold i k b j l = hold j l := by
  by_cases hj : j = i
  · subst hj
    have hl : l ≠ k := fun hl => h ⟨rfl,hl⟩
    simp [assign,hl]
  · simp [assign,hj]

omit [Zero β] in
theorem assign_row_of_ne (hold : ι → κ → β) {i j : ι} (k : κ) (b : β) (h : j ≠ i) :
    assign hold i k b j = hold j := by
  simp [assign,h]

omit [Zero β] in
theorem assign_row (hold : ι → κ → β) (i : ι) (k : κ) (b : β) :
    assign hold i k b i = Function.update (hold i) k b := by
  simp [assign]

variable {hold : ι → κ → β} {used : β → Prop}

omit [DecidableEq ι] [DecidableEq κ] in
theorem Balanced.used_of_hold (h : Balanced hold used) {i : ι} {k : κ} (hk : hold i k ≠ 0) :
    used (hold i k) :=
  (h.covered _).mpr ⟨hk,i,k,rfl⟩

theorem Balanced.assign (h : Balanced hold used) {i : ι} {k : κ} {b : β} (hk : hold i k = 0)
    (hb : b ≠ 0) (hfree : ¬used b) :
    Balanced (assign hold i k b) (fun x => x = b ∨ used x) := by
  have hnot : ∀ j l, hold j l ≠ b := by
    intro j l hjl
    exact hfree ((h.covered b).mpr ⟨hb,j,l,hjl⟩)
  constructor
  · intro x
    constructor
    · rintro (rfl | hx)
      · exact ⟨hb,i,k,assign_self hold i k _⟩
      · obtain ⟨h0,j,l,rfl⟩ := (h.covered x).mp hx
        refine ⟨h0,j,l,assign_of_ne hold b ?_⟩
        rintro ⟨rfl,rfl⟩
        exact h0 hk
    · rintro ⟨h0,j,l,rfl⟩
      by_cases hjl : j = i ∧ l = k
      · obtain ⟨rfl,rfl⟩ := hjl
        exact Or.inl (assign_self hold j l b)
      · rw [assign_of_ne hold b hjl] at h0 ⊢
        exact Or.inr (h.used_of_hold h0)
  · intro j l j' l' h0 he
    by_cases hjl : j = i ∧ l = k
    · by_cases hjl' : j' = i ∧ l' = k
      · exact ⟨hjl.1.trans hjl'.1.symm,hjl.2.trans hjl'.2.symm⟩
      · obtain ⟨rfl,rfl⟩ := hjl
        rw [assign_self,assign_of_ne hold b hjl'] at he
        exact absurd he.symm (hnot j' l')
    · rw [assign_of_ne hold b hjl] at h0 he
      by_cases hjl' : j' = i ∧ l' = k
      · obtain ⟨rfl,rfl⟩ := hjl'
        rw [assign_self] at he
        exact absurd he (hnot j l)
      · rw [assign_of_ne hold b hjl'] at he
        exact h.unique j l j' l' h0 he

theorem Balanced.release (h : Balanced hold used) {i : ι} {k : κ} (hk : hold i k ≠ 0) :
    Balanced (Holdings.assign hold i k 0) (fun x => x ≠ hold i k ∧ used x) := by
  constructor
  · intro x
    constructor
    · rintro ⟨hne,hx⟩
      obtain ⟨h0,j,l,rfl⟩ := (h.covered x).mp hx
      refine ⟨h0,j,l,assign_of_ne hold 0 ?_⟩
      rintro ⟨rfl,rfl⟩
      exact hne rfl
    · rintro ⟨h0,j,l,rfl⟩
      have hjl : ¬(j = i ∧ l = k) := by
        rintro ⟨rfl,rfl⟩
        exact h0 (assign_self hold j l 0)
      rw [assign_of_ne hold 0 hjl] at h0 ⊢
      refine ⟨fun he => hjl ?_,h.used_of_hold h0⟩
      exact h.unique j l i k h0 he
  · intro j l j' l' h0 he
    have hjl : ¬(j = i ∧ l = k) := by
      rintro ⟨rfl,rfl⟩
      exact h0 (assign_self hold j l 0)
    rw [assign_of_ne hold 0 hjl] at h0 he
    by_cases hjl' : j' = i ∧ l' = k
    · obtain ⟨rfl,rfl⟩ := hjl'
      rw [assign_self] at he
      exact absurd he h0
    · rw [assign_of_ne hold 0 hjl'] at he
      exact h.unique j l j' l' h0 he

end Balance

section Count

variable [DecidableEq κ] [DecidableEq β]

/-- The number of slots of `S` whose value is not the empty one. -/
def held (S : Finset κ) (z : β) (f : κ → β) : ℕ :=
  (S.filter (fun k => f k ≠ z)).card

theorem held_update_of_eq {S : Finset κ} {z b : β} {f : κ → β} {k : κ} (hk : k ∈ S)
    (hf : f k = z) (hb : b ≠ z) : held S z (Function.update f k b) = held S z f + 1 := by
  have hs : S.filter (fun l => Function.update f k b l ≠ z) =
      insert k (S.filter (fun l => f l ≠ z)) := by
    ext l
    by_cases hl : l = k
    · subst hl
      simp [hb,hk]
    · simp [hl]
  rw [held,hs,Finset.card_insert_of_notMem (by simp [hf]),held]

theorem held_update_of_ne {S : Finset κ} {z : β} {f : κ → β} {k : κ} (hk : k ∈ S)
    (hf : f k ≠ z) : held S z (Function.update f k z) + 1 = held S z f := by
  have h := held_update_of_eq (f := Function.update f k z) hk (Function.update_self ..) hf
  rw [Function.update_idem,Function.update_eq_self] at h
  exact h.symm

omit [DecidableEq κ] in
theorem held_eq_zero {S : Finset κ} {z : β} {f : κ → β} :
    held S z f = 0 ↔ ∀ k ∈ S, f k = z := by
  simp [held,Finset.filter_eq_empty_iff]

omit [DecidableEq κ] in
theorem held_le_card (S : Finset κ) (z : β) (f : κ → β) : held S z f ≤ S.card :=
  Finset.card_filter_le ..

omit [DecidableEq κ] in
theorem held_eq_card {S : Finset κ} {z : β} {f : κ → β} (h : ∀ k ∈ S, f k ≠ z) :
    held S z f = S.card := by
  rw [held,Finset.filter_true_of_mem h]

end Count

end Holdings
end OsLabs

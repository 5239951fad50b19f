import Mathlib.Order.Lattice.Nat
import Mathlib.Data.List.Nodup
import Mathlib.Tactic

/-!
# Bounded maps with least-recently-used eviction

The reference behaviour of a cache of bounded size: a list of items with different keys, the one
used longest ago first. An insertion evicts the shortest prefix of the list after whose removal
the new item fits.
-/

namespace OsLabs
namespace BoundedLru

variable {α κ : Type*} [DecidableEq κ] (key : α → κ) (size : α → ℤ)

def total (l : List α) : ℤ := (l.map size).sum

/-- The item with the key. -/
def find (k : κ) (l : List α) : Option α := l.find? fun a => key a = k

/-- A successful access moves the item to the end. -/
def lookup (k : κ) (l : List α) : Bool × List α :=
  match find key k l with
  | none => (false,l)
  | some a => (true,(l.filter fun b => key b ≠ k) ++ [a])

/-- The least number of items to evict from the front so that `n` more fit. -/
noncomputable def evictions (max n : ℤ) (l : List α) : ℕ := sInf {k | total size (l.drop k) + n ≤ max}

/-- Items that are too large and items whose key is present are refused. -/
noncomputable def insert (max : ℤ) (a : α) (l : List α) : Bool × List α :=
  if max < size a ∨ ∃ b ∈ l, key b = key a then (false,l)
  else (true,l.drop (evictions size max (size a) l) ++ [a])

variable {key size} {max n : ℤ} {a : α} {l : List α}

theorem total_cons (a : α) (l : List α) : total size (a::l) = size a + total size l := by
  simp [total]

theorem total_append_singleton (l : List α) (a : α) : total size (l ++ [a]) = total size l + size a := by
  simp [total]

theorem total_nonneg (h : ∀ a, 0 ≤ size a) (l : List α) : 0 ≤ total size l := by
  induction l with
  | nil => simp [total]
  | cons a l ih =>
    rw [total_cons]
    have := h a
    omega

theorem total_perm {l' : List α} (h : l.Perm l') : total size l = total size l' :=
  (h.map size).sum_eq

theorem evictions_of_fits (h : total size l + n ≤ max) : evictions size max n l = 0 :=
  Nat.sInf_eq_zero.mpr (.inl h)

theorem evictions_cons (h : ¬ total size (a::l) + n ≤ max) (hn : n ≤ max) :
    evictions size max n (a::l) = evictions size max n l + 1 := by
  have hne : {k | total size ((a::l).drop k) + n ≤ max}.Nonempty :=
    ⟨(a::l).length,by
      change total size ((a::l).drop (a::l).length) + n ≤ max
      simpa [total,List.drop_length] using hn⟩
  have h₀ : 1 ≤ sInf {k | total size ((a::l).drop k) + n ≤ max} := by
    by_contra hlt
    have hzero : sInf {k | total size ((a::l).drop k) + n ≤ max} = 0 := by omega
    have hmem := Nat.sInf_mem hne
    rw [hzero] at hmem
    exact h hmem
  have hs := Nat.sInf_add (p := fun k => total size ((a::l).drop k) + n ≤ max) h₀
  exact hs.symm

theorem insert_refused (h : max < size a ∨ ∃ b ∈ l, key b = key a) :
    insert key size max a l = (false,l) := if_pos h

theorem insert_accepted (h : ¬ (max < size a ∨ ∃ b ∈ l, key b = key a)) :
    insert key size max a l = (true,l.drop (evictions size max (size a) l) ++ [a]) := if_neg h

/-- Evicting one item and inserting then comes to the same. -/
theorem insert_cons {b : α} (h : ¬ (max < size a ∨ ∃ c ∈ b::l, key c = key a))
    (hf : ¬ total size (b::l) + size a ≤ max) : insert key size max a (b::l) = insert key size max a l := by
  have hl : ¬ (max < size a ∨ ∃ c ∈ l, key c = key a) := by
    rintro (hs | ⟨c,hc,hk⟩)
    · exact h (.inl hs)
    · exact h (.inr ⟨c,List.mem_cons_of_mem b hc,hk⟩)
  rw [insert_accepted h,insert_accepted hl,evictions_cons hf (not_lt.mp fun hs => h (.inl hs)),
    List.drop_succ_cons]

theorem insert_fits (h : ¬ (max < size a ∨ ∃ b ∈ l, key b = key a)) (hf : total size l + size a ≤ max) :
    insert key size max a l = (true,l ++ [a]) := by
  rw [insert_accepted h,evictions_of_fits hf,List.drop_zero]

/-- What an insertion leaves stays within the limit. -/
theorem total_insert_le (h : total size l ≤ max) : total size (insert key size max a l).2 ≤ max := by
  by_cases hr : max < size a ∨ ∃ b ∈ l, key b = key a
  · rw [insert_refused hr]
    exact h
  · rw [insert_accepted hr,total_append_singleton]
    refine Nat.sInf_mem (s := {k | total size (l.drop k) + size a ≤ max}) ⟨l.length,?_⟩
    change total size (l.drop l.length) + size a ≤ max
    simpa [total,List.drop_length] using not_lt.mp fun hs => hr (.inl hs)

theorem find_of_mem (h : (l.map key).Nodup) (ha : a ∈ l) : find key (key a) l = some a := by
  cases hf : find key (key a) l with
  | none =>
    have := List.find?_eq_none.mp hf a ha
    simp at this
  | some b =>
    have hk : key b = key a := by simpa using List.find?_some hf
    rw [List.inj_on_of_nodup_map h (List.mem_of_find?_eq_some hf) ha hk]

/-- An access does not change which item has which key. -/
theorem find_lookup (k : κ) (l : List α) : find key k (lookup key k l).2 = find key k l := by
  rw [lookup]
  cases hf : find key k l with
  | none => simp only [hf]
  | some a =>
    have hk : key a = k := by simpa using List.find?_some hf
    have hnone : (l.filter fun b => key b ≠ k).find? (fun b => key b = k) = none := by
      simp
    simp only [find,List.find?_append,hnone,Option.none_or]
    simp [hk]

/-- With different keys, removing an item is removing its key. -/
theorem erase_eq_filter [DecidableEq α] (h : (l.map key).Nodup) (ha : a ∈ l) :
    l.erase a = l.filter fun b => key b ≠ key a := by
  rw [List.Nodup.erase_eq_filter (h.of_map key)]
  refine List.filter_congr fun b hb => ?_
  by_cases hba : b = a
  · simp [hba]
  · have hk : key b ≠ key a := fun he => hba (List.inj_on_of_nodup_map h hb ha he)
    simp [hba,hk]

theorem lookup_perm (h : (l.map key).Nodup) (k : κ) : (lookup key k l).2.Perm l := by
  classical
  rw [lookup]
  cases hf : find key k l with
  | none => exact List.Perm.refl l
  | some a =>
    have ha : a ∈ l := List.mem_of_find?_eq_some hf
    have hk : key a = k := by simpa using List.find?_some hf
    subst hk
    simp only
    rw [← erase_eq_filter h ha]
    exact (List.perm_append_singleton a _).trans (List.perm_cons_erase ha).symm

end BoundedLru
end OsLabs

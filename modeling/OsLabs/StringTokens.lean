import Mathlib.Data.List.TakeWhile
import Mathlib.Tactic

/-!
# Tokens one at a time

`strtok` is one call of the C function that cuts tokens off a string: it skips delimiters,
takes what comes before the next one, and leaves what is behind it. The delimiters may be
others at the next call.
-/

namespace OsLabs
namespace StringTokens

variable {α : Type*} {delim : α → Bool} {d : α} {s w r : List α}

/-- The token at the start of a string, if there is one, and what is behind its end. -/
def strtok (delim : α → Bool) (s : List α) : Option (List α) × List α :=
  match s.dropWhile delim with
  | [] => (none,[])
  | x::t => (some ((x::t).takeWhile (!delim ·)),((x::t).dropWhile (!delim ·)).tail)

/-- A token that the next delimiter ends. -/
theorem strtok_word (hw : ∀ x ∈ w, delim x = false) (hne : w ≠ []) (hd : delim d = true) (r : List α) :
    strtok delim (w ++ d::r) = (some w,r) := by
  obtain ⟨x,t,rfl⟩ := List.exists_cons_of_ne_nil hne
  have hx : delim x = false := hw x List.mem_cons_self
  have htake : (x::t ++ d::r).takeWhile (!delim ·) = x::t := by
    rw [List.takeWhile_append_of_pos fun y hy => by simp [hw y hy]]
    simp [hd]
  have hdrop : (x::t ++ d::r).dropWhile (!delim ·) = d::r := by
    rw [List.dropWhile_append_of_pos fun y hy => by simp [hw y hy]]
    simp [hd]
  have hskip : (x::t ++ d::r).dropWhile delim = x::(t ++ d::r) := by simp [hx]
  simp only [strtok,hskip]
  rw [← List.cons_append,htake,hdrop,List.tail_cons]

/-- A token that the end of the string ends. -/
theorem strtok_last (hw : ∀ x ∈ w, delim x = false) (hne : w ≠ []) : strtok delim w = (some w,[]) := by
  obtain ⟨x,t,rfl⟩ := List.exists_cons_of_ne_nil hne
  have hx : delim x = false := hw x List.mem_cons_self
  have htake : (x::t).takeWhile (!delim ·) = x::t :=
    List.takeWhile_eq_self_iff.mpr fun y hy => by simp [hw y hy]
  have hdrop : (x::t).dropWhile (!delim ·) = [] :=
    List.dropWhile_eq_nil_iff.mpr fun y hy => by simp [hw y hy]
  have hskip : (x::t).dropWhile delim = x::t := by simp [hx]
  simp only [strtok,hskip,htake,hdrop,List.tail_nil]

theorem strtok_some (h : strtok delim s = (some w,r)) : w ≠ [] ∧ (∀ x ∈ w, delim x = false) ∧
    (∀ x ∈ w, x ∈ s) ∧ ∀ x ∈ r, x ∈ s := by
  have hmem : ∀ y ∈ s.dropWhile delim, y ∈ s := fun y hy =>
    (List.dropWhile_suffix delim).subset hy
  simp only [strtok] at h
  split at h
  · cases h
  · rename_i x t hd
    cases h
    have hx : delim x = false := by
      have hhead := List.head?_dropWhile_not delim s
      simpa [hd] using hhead
    rw [hd] at hmem
    refine ⟨by simp [hx],fun y hy => by simpa using List.mem_takeWhile_imp hy,fun y hy => ?_,fun y hy => ?_⟩
    · exact hmem y ((List.takeWhile_prefix _).subset hy)
    · exact hmem y ((List.dropWhile_suffix _).subset (List.mem_of_mem_tail hy))

end StringTokens
end OsLabs

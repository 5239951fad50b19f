import Mathlib.Data.List.TakeWhile
import Mathlib.Tactic

/-!
# Tokens of a list

The tokens of a list are its maximal runs of elements that are no delimiters. One that skips the
delimiters, takes what comes before the next one and starts again behind it finds them in order.
-/

namespace OsLabs
namespace Tokens

variable {α : Type*} {p q : α → Bool} {l w : List α} {x y : α} {i : ℕ}

def tokens (p : α → Bool) (l : List α) : List (List α) := (l.splitOnP p).filter fun w => !w.isEmpty

@[simp] theorem tokens_nil : tokens p [] = [] := by simp [tokens]

theorem tokens_cons (hx : p x = true) : tokens p (x::l) = tokens p l := by
  simp [tokens,List.splitOnP_cons_eq_if_modifyHead,hx]

/-- Delimiters in front are skipped. -/
theorem tokens_dropWhile (p : α → Bool) (l : List α) : tokens p (l.dropWhile p) = tokens p l := by
  induction l with
  | nil => rfl
  | cons x l ih =>
    by_cases hx : p x = true
    · rw [List.dropWhile_cons_of_pos hx,ih,tokens_cons hx]
    · rw [List.dropWhile_cons_of_neg hx]

theorem tokens_eq_singleton (hw : ∀ x ∈ w, p x = false) (hne : w ≠ []) : tokens p w = [w] := by
  simp [tokens,List.splitOnP_eq_singleton hw,hne]

theorem tokens_append_cons (hx : p x = true) (w l : List α) :
    tokens p (w ++ x::l) = tokens p w ++ tokens p l := by
  rw [tokens,List.splitOnP_append_cons w l hx,List.filter_append]
  rfl

/-- The first token of a list that begins with one, and the tokens behind the delimiter that ends it. -/
theorem tokens_eq_cons (hx : p x = false) (l : List α) :
    tokens p (x::l) = (x::l).takeWhile (!p ·)::tokens p ((x::l).dropWhile (!p ·)).tail := by
  have hsplit := List.takeWhile_append_dropWhile (p := (!p ·)) (l := x::l)
  have hw : ∀ y ∈ (x::l).takeWhile (!p ·), p y = false := fun y hy => by
    simpa using List.mem_takeWhile_imp hy
  have hne : (x::l).takeWhile (!p ·) ≠ [] := by simp [hx]
  cases hd : (x::l).dropWhile (!p ·) with
  | nil =>
    rw [hd,List.append_nil] at hsplit
    rw [List.tail_nil,tokens_nil]
    nth_rewrite 1 [← hsplit]
    exact tokens_eq_singleton hw hne
  | cons y t =>
    have hy : p y = true := by
      have hhead := List.head?_dropWhile_not (!p ·) (x::l)
      simpa [hd] using hhead
    rw [hd] at hsplit
    rw [List.tail_cons]
    nth_rewrite 1 [← hsplit]
    rw [tokens_append_cons hy,tokens_eq_singleton hw hne]
    rfl

/-- Every token is at least one element long. -/
theorem length_tokens_le (p : α → Bool) (l : List α) : (tokens p l).length ≤ l.length := by
  induction hn : l.length using Nat.strong_induction_on generalizing l with
  | _ n ih =>
    cases l with
    | nil => simp
    | cons x l =>
      subst hn
      by_cases hx : p x = true
      · have hle := ih _ (by simp) l rfl
        rw [tokens_cons hx]
        exact hle.trans (by simp)
      · rw [Bool.not_eq_true] at hx
        have hlt : (((x::l).dropWhile (!p ·)).tail).length ≤ l.length := by
          rw [List.dropWhile_cons_of_pos (by simp [hx]),List.length_tail]
          exact (Nat.sub_le _ _).trans (List.length_dropWhile_le _ _)
        have hle := ih ((x::l).dropWhile (!p ·)).tail.length (Nat.lt_succ_of_le hlt) _ rfl
        rw [tokens_eq_cons hx,List.length_cons,List.length_cons]
        exact Nat.succ_le_succ (hle.trans hlt)

/-! ### Stretches of a list -/

/-- Skipping inside of what is taken. -/
theorem takeWhile_dropWhile (h : ∀ x, q x = true → p x = true) (l : List α) :
    (l.dropWhile q).takeWhile p = (l.takeWhile p).dropWhile q := by
  induction l with
  | nil => rfl
  | cons x l ih =>
    by_cases hq : q x = true
    · simp [hq,h x hq,ih]
    · by_cases hp : p x = true <;> simp [hq,hp]

theorem takeWhile_congr (h : ∀ x ∈ l, p x = q x) : l.takeWhile p = l.takeWhile q := by
  induction l with
  | nil => rfl
  | cons x l ih =>
    obtain ⟨hx,h⟩ := List.forall_mem_cons.mp h
    simp only [List.takeWhile_cons,hx,ih h]

theorem dropWhile_congr (h : ∀ x ∈ l, p x = q x) : l.dropWhile p = l.dropWhile q := by
  induction l with
  | nil => rfl
  | cons x l ih =>
    obtain ⟨hx,h⟩ := List.forall_mem_cons.mp h
    simp only [List.dropWhile_cons,hx,ih h]

theorem dropWhile_eq_drop (p : α → Bool) (l : List α) : l.dropWhile p = l.drop (l.takeWhile p).length := by
  have hsplit : (l.takeWhile p ++ l.dropWhile p).drop (l.takeWhile p).length = l.dropWhile p :=
    List.drop_left
  rw [List.takeWhile_append_dropWhile] at hsplit
  exact hsplit.symm

theorem length_takeWhile_lt (hx : x ∈ l) (hp : p x = false) : (l.takeWhile p).length < l.length := by
  refine lt_of_le_of_ne (List.takeWhile_prefix p).length_le fun he => ?_
  have hall := List.takeWhile_eq_self_iff.mp ((List.takeWhile_prefix p).eq_of_length he) x hx
  exact absurd hall (by simp [hp])

/-- A change behind the end of a stretch. -/
theorem takeWhile_set (h : (l.takeWhile p).length < i) (y : α) :
    (l.set i y).takeWhile p = l.takeWhile p := by
  induction l generalizing i with
  | nil => rfl
  | cons x l ih =>
    obtain ⟨i,rfl⟩ : ∃ k, i = k+1 := ⟨i-1,by omega⟩
    by_cases hx : p x = true
    · rw [List.takeWhile_cons_of_pos hx,List.length_cons] at h
      rw [List.set_cons_succ,List.takeWhile_cons_of_pos hx,List.takeWhile_cons_of_pos hx,
        ih (Nat.lt_of_succ_lt_succ h)]
    · rw [List.set_cons_succ,List.takeWhile_cons_of_neg hx,List.takeWhile_cons_of_neg hx]

/-- An element that ends a stretch is put directly behind a shorter one. -/
theorem takeWhile_set_end (h : ∀ x, q x = true → p x = true) (hy : p y = false) (l : List α) :
    (l.set (l.takeWhile q).length y).takeWhile p =
      if (l.takeWhile q).length < l.length then l.takeWhile q else l.takeWhile p := by
  induction l with
  | nil => rfl
  | cons x l ih =>
    by_cases hq : q x = true
    · simp only [List.takeWhile_cons_of_pos hq,List.length_cons,List.set_cons_succ,
        List.takeWhile_cons_of_pos (h x hq),ih,Nat.add_lt_add_iff_right]
      split <;> rfl
    · simp [hq,hy]

end Tokens
end OsLabs

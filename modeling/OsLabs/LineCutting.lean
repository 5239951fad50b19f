import Mathlib.Data.List.Basic
import Mathlib.Data.List.Induction
import Mathlib.Tactic

/-!
# Cutting a list into lines

A list is cut directly after each element that ends a line, and after every `m` elements without
one. `piece` is the first piece by itself, so that `cut_eq` says how one that takes piece after
piece off the list comes to the same as `cut`.
-/

namespace OsLabs
namespace LineCutting

variable {α : Type*} (ends : α → Bool) {m n : ℕ} {l : List α} {x : α}

/-- The longest start of a list that has at most `n` elements and ends with the first line. -/
def piece : ℕ → List α → List α
  | 0, _ => []
  | _+1, [] => []
  | n+1, x::l => if ends x then [x] else x::piece n l

/-- The pieces of at most `m` elements; the first one begins with the elements `begun`. -/
def cutFrom (m : ℕ) (begun : List α) : List α → List (List α)
  | [] => if begun.isEmpty then [] else [begun]
  | x::l =>
    if ends x || begun.length+1 == m then (begun ++ [x])::cutFrom m [] l
    else cutFrom m (begun ++ [x]) l

def cut (m : ℕ) (l : List α) : List (List α) := cutFrom ends m [] l

@[simp] theorem piece_zero (l : List α) : piece ends 0 l = [] := by
  cases l <;> rfl

@[simp] theorem piece_nil (n : ℕ) : piece ends n [] = [] := by
  cases n <;> rfl

theorem length_piece_le (n : ℕ) (l : List α) : (piece ends n l).length ≤ n := by
  induction l generalizing n with
  | nil => simp
  | cons x l ih =>
    cases n with
    | zero => simp
    | succ n =>
      simp only [piece]
      split
      · simp
      · simpa using ih n

theorem piece_take (h : n ≤ m) (l : List α) : piece ends n l = (piece ends m l).take n := by
  induction l generalizing n m with
  | nil => simp
  | cons x l ih =>
    cases n with
    | zero => simp
    | succ n =>
      cases m with
      | zero => omega
      | succ m =>
        simp only [piece]
        split
        · simp
        · simp [ih (Nat.le_of_succ_le_succ h)]

theorem piece_isPrefix (n : ℕ) (l : List α) : piece ends n l <+: l := by
  induction l generalizing n with
  | nil => simp
  | cons x l ih =>
    cases n with
    | zero => simp
    | succ n =>
      simp only [piece]
      split
      · simp
      · simpa using ih n

theorem piece_append_drop (n : ℕ) (l : List α) :
    piece ends n l ++ l.drop (piece ends n l).length = l := by
  have hp := List.prefix_iff_eq_take.mp (piece_isPrefix ends n l)
  nth_rewrite 1 [hp]
  exact List.take_append_drop _ l

theorem piece_ne_nil (hn : 0 < n) (hl : l ≠ []) : piece ends n l ≠ [] := by
  cases l with
  | nil => exact absurd rfl hl
  | cons x l =>
    cases n with
    | zero => omega
    | succ n =>
      simp only [piece]
      split <;> simp

variable {ends} in
/-- A line that is short enough is a piece. -/
theorem piece_line {line : List α} (hline : ∀ y ∈ line, ends y = false) (hx : ends x = true)
    (hn : line.length < n) (l : List α) : piece ends n (line ++ x::l) = line ++ [x] := by
  induction line generalizing n with
  | nil =>
    obtain ⟨n,rfl⟩ : ∃ k, n = k+1 := ⟨n-1,by simp at hn; omega⟩
    simp [piece,hx]
  | cons y line ih =>
    obtain ⟨n,rfl⟩ : ∃ k, n = k+1 := ⟨n-1,by simp at hn; omega⟩
    obtain ⟨hy,hline⟩ := List.forall_mem_cons.mp hline
    simp [piece,hy,ih hline (by simpa using hn)]

variable {ends} in
theorem piece_replicate (h : ends x = false) (n k : ℕ) :
    piece ends n (List.replicate k x) = List.replicate (min n k) x := by
  induction k generalizing n with
  | zero => simp
  | succ k ih =>
    cases n with
    | zero => simp
    | succ n => simp [List.replicate_succ,piece,h,ih,Nat.succ_min_succ]

variable {ends} in
/-- Only the last element of a piece may end a line. -/
theorem not_ends_of_mem_dropLast (n : ℕ) (l : List α) (h : x ∈ (piece ends n l).dropLast) :
    ends x = false := by
  induction l generalizing n with
  | nil => simp at h
  | cons y l ih =>
    cases n with
    | zero => simp at h
    | succ n =>
      simp only [piece] at h
      split at h
      · simp at h
      · rename_i hy
        cases hp : piece ends n l with
        | nil => simp [hp] at h
        | cons z t =>
          rw [hp,List.dropLast_cons_cons] at h
          rcases List.mem_cons.mp h with rfl | h
          · simpa using hy
          · exact ih n (hp ▸ h)

/-- What is begun is finished by a piece of the rest. -/
theorem cutFrom_eq {begun : List α} (hn : 0 < n) (hm : begun.length+n = m) (h : begun ++ l ≠ []) :
    cutFrom ends m begun l =
      (begun ++ piece ends n l)::cut ends m (l.drop (piece ends n l).length) := by
  induction l generalizing begun n with
  | nil =>
    have hb : begun.isEmpty = false := by simpa using h
    simp [cutFrom,cut,hb]
  | cons x l ih =>
    obtain ⟨n,rfl⟩ : ∃ k, n = k+1 := ⟨n-1,by omega⟩
    simp only [cutFrom,piece]
    by_cases hx : ends x = true
    · simp [hx,cut]
    · by_cases hlast : begun.length+1 = m
      · obtain rfl : n = 0 := by omega
        simp [hx,hlast,cut]
      · rw [if_neg (by simp [hx,hlast]),if_neg hx,
          ih (n := n) (by omega) (by simp; omega) (by simp : begun ++ [x] ++ l ≠ [])]
        simp

@[simp] theorem cut_nil : cut ends m ([] : List α) = [] := rfl

/-- The first piece, and the pieces of the rest. -/
theorem cut_eq (hm : 0 < m) (hl : l ≠ []) :
    cut ends m l = piece ends m l::cut ends m (l.drop (piece ends m l).length) := by
  have h := cutFrom_eq ends (m := m) hm (by simp) (by simpa using hl : [] ++ l ≠ [])
  simpa [cut] using h

variable {ends} in
theorem cut_line {line : List α} (hline : ∀ y ∈ line, ends y = false) (hx : ends x = true)
    (hm : line.length < m) (l : List α) :
    cut ends m (line ++ x::l) = (line ++ [x])::cut ends m l := by
  have hpiece := piece_line hline hx hm l
  have hdrop : (line ++ x::l).drop (line ++ [x]).length = l := by
    rw [List.append_cons line x l]
    exact List.drop_left
  rw [cut_eq ends (by omega) (by simp),hpiece,hdrop]

theorem induction_on_pieces {P : List α → Prop} (hm : 0 < m) (nil : P [])
    (step : ∀ l, l ≠ [] → P (l.drop (piece ends m l).length) → P l) (l : List α) : P l := by
  induction hlen : l.length using Nat.strong_induction_on generalizing l with
  | _ k ih =>
    by_cases hl : l = []
    · exact hl ▸ nil
    · have hpos := List.length_pos_iff.mpr (piece_ne_nil ends hm hl)
      have hlpos := List.length_pos_iff.mpr hl
      refine step l hl (ih _ ?_ _ rfl)
      rw [List.length_drop]
      omega

/-- No element is lost or repeated. -/
theorem flatten_cut (hm : 0 < m) (l : List α) : (cut ends m l).flatten = l := by
  induction l using induction_on_pieces ends hm with
  | nil => rfl
  | step l hl ih =>
    rw [cut_eq ends hm hl,List.flatten_cons,ih]
    exact piece_append_drop ends m l

variable {ends} in
theorem exists_piece_of_mem_cut (hm : 0 < m) {p : List α} (hp : p ∈ cut ends m l) :
    ∃ t, t ≠ [] ∧ p = piece ends m t := by
  induction l using induction_on_pieces ends hm with
  | nil => simp at hp
  | step l hl ih =>
    rw [cut_eq ends hm hl] at hp
    rcases List.mem_cons.mp hp with rfl | hp
    · exact ⟨l,hl,rfl⟩
    · exact ih hp

variable {ends} in
theorem ne_nil_of_mem_cut (hm : 0 < m) {p : List α} (hp : p ∈ cut ends m l) : p ≠ [] := by
  obtain ⟨t,ht,rfl⟩ := exists_piece_of_mem_cut hm hp
  exact piece_ne_nil ends hm ht

end LineCutting
end OsLabs

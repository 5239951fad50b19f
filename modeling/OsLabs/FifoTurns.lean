import Mathlib.Data.List.TakeWhile
import Mathlib.Tactic

/-!
# Turns in a queue

A queue whose members are served one at a time: newcomers go to its end, and a turn
takes the first member, or a member that somebody names. Whoever waits is overtaken
by nobody but the named, and gets closer to the front with every turn of the first.
-/

namespace OsLabs
namespace FifoTurns

variable {α : Type*} [DecidableEq α]

/-- Those who stand before the first occurrence of `t`. -/
def inFront (t : α) (q : List α) : List α := q.takeWhile fun x => decide (x ≠ t)

/-- Who is served in a turn. -/
inductive Served (α : Type*)
  | nobody | first (x : α) | named (x : α)

/-- One change of the queue, with newcomers at any time. -/
inductive Turn (q : List α) : Served α → List α → Prop
  | nobody (l : List α) : Turn q .nobody (q ++ l)
  | first {x : α} {rest : List α} (l m : List α) : q ++ l = x::rest → Turn q (.first x) (rest ++ m)
  | named {x : α} (l : List α) : x ∈ q → Turn q (.named x) (q.erase x ++ l)

variable {t x : α} {q l rest : List α}

theorem inFront_cons_self (t : α) (q : List α) : inFront t (t::q) = [] := by simp [inFront]

theorem inFront_cons_of_ne (h : x ≠ t) (q : List α) : inFront t (x::q) = x::inFront t q := by
  simp [inFront,h]

theorem inFront_append (ht : t ∈ q) (l : List α) : inFront t (q ++ l) = inFront t q := by
  induction q with
  | nil => simp at ht
  | cons x q ih =>
    by_cases hx : x = t
    · subst hx
      rw [List.cons_append,inFront_cons_self,inFront_cons_self]
    · have ht' : t ∈ q := (List.mem_cons.mp ht).resolve_left (Ne.symm hx)
      rw [List.cons_append,inFront_cons_of_ne hx,inFront_cons_of_ne hx,ih ht']

/-- Taking somebody else out lets nobody past. -/
theorem inFront_erase (hx : x ≠ t) : (inFront t (q.erase x)).Sublist (inFront t q) := by
  induction q with
  | nil => exact List.Sublist.refl _
  | cons y q ih =>
    by_cases hy : y = x
    · subst hy
      rw [List.erase_cons_head,inFront_cons_of_ne hx]
      exact List.sublist_cons_self y _
    · rw [List.erase_cons_tail (by simpa using hy)]
      by_cases hyt : y = t
      · subst hyt
        rw [inFront_cons_self,inFront_cons_self]
      · rw [inFront_cons_of_ne hyt,inFront_cons_of_ne hyt]
        exact ih.cons_cons y

def Served.isFirst : Served α → Bool
  | .first _ => true
  | _ => false

/-- One turn in which `t` is not served: it stays, nobody gets before it, and a turn of the
first brings it one place forward. -/
theorem Turn.waits {v : Served α} {q' : List α} (h : Turn q v q') (ht : t ∈ q)
    (hf : v ≠ .first t) (hn : v ≠ .named t) : t ∈ q' ∧ (inFront t q').Sublist (inFront t q) ∧
      (inFront t q').length+(if v.isFirst then 1 else 0) ≤ (inFront t q).length := by
  cases h with
  | nobody l =>
    rw [inFront_append ht]
    exact ⟨List.mem_append_left _ ht,List.Sublist.refl _,le_refl _⟩
  | @first x rest l m hq =>
    have hx : x ≠ t := fun he => hf (by rw [he])
    have hr : t ∈ rest := by
      have hm : t ∈ x::rest := hq ▸ List.mem_append_left l ht
      exact (List.mem_cons.mp hm).resolve_left (Ne.symm hx)
    have ha : inFront t q = x::inFront t rest := by
      rw [← inFront_append ht l,hq,inFront_cons_of_ne hx]
    rw [inFront_append hr,ha]
    exact ⟨List.mem_append_left _ hr,List.sublist_cons_self x _,by simp [Served.isFirst]⟩
  | @named x l hm =>
    have hx : x ≠ t := fun he => hn (by rw [he])
    have hr : t ∈ q.erase x := (List.mem_erase_of_ne (Ne.symm hx)).mpr ht
    rw [inFront_append hr]
    exact ⟨List.mem_append_left _ hr,inFront_erase hx,(inFront_erase hx).length_le⟩

end FifoTurns
end OsLabs

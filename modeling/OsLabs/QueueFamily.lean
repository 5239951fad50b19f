import Mathlib.Data.List.Perm.Basic
import Mathlib.Data.List.Nodup
import Mathlib.Tactic

/-!
# Families of queues that share their items

A family `f : ι → List α` is exclusive when no item stands at two places of it.
Every operation of a scheduler moves a list of items from one queue of the family
to another; `Moved` describes that up to order, and an exclusive family stays
exclusive and keeps its items along it. A chained table is a finite family of queues.
-/

namespace OsLabs
namespace QueueFamily

variable {ι α : Type*}

/-- No item stands twice in one queue or in two queues. -/
structure Exclusive (f : ι → List α) : Prop where
  nodup : ∀ i, (f i).Nodup
  unique : ∀ {i j a}, a ∈ f i → a ∈ f j → i = j

/-- `g` arises from `f` by taking the items `l` out of queue `i` and adding them to `j`. -/
structure Moved (l : List α) (i j : ι) (f g : ι → List α) : Prop where
  ne : i ≠ j
  source : (f i).Perm (l ++ g i)
  target : (g j).Perm (l ++ f j)
  rest : ∀ k, k ≠ i → k ≠ j → g k = f k

namespace Exclusive

variable {f g : ι → List α}

/-- Items may disappear from an exclusive family. -/
theorem sublist (h : Exclusive f) (hg : ∀ i, (g i).Sublist (f i)) : Exclusive g where
  nodup i := (h.nodup i).sublist (hg i)
  unique ha hb := h.unique ((hg _).subset ha) ((hg _).subset hb)

/-- An item of an exclusive family stands at exactly one place. -/
theorem existsUnique (h : Exclusive f) {i : ι} {a : α} (ha : a ∈ f i) :
    ∃! p : ι × ℕ, (f p.1)[p.2]? = some a := by
  obtain ⟨n,hn⟩ := List.mem_iff_getElem?.mp ha
  refine ⟨(i,n),hn,?_⟩
  rintro ⟨j,m⟩ hm
  dsimp only at hm
  obtain rfl : j = i := h.unique (List.mem_of_getElem? hm) ha
  have hmn : m = n := by
    have hlt := (List.getElem?_eq_some_iff.mp hm).1
    exact (List.getElem?_inj hlt (h.nodup j)).mp (hm.trans hn.symm)
  rw [hmn]

end Exclusive

namespace Moved

variable {f g : ι → List α} {l : List α} {i j : ι}

theorem mem_source (h : Moved l i j f g) {a : α} : a ∈ f i ↔ a ∈ l ∨ a ∈ g i := by
  rw [h.source.mem_iff,List.mem_append]

theorem mem_target (h : Moved l i j f g) {a : α} : a ∈ g j ↔ a ∈ l ∨ a ∈ f j := by
  rw [h.target.mem_iff,List.mem_append]

/-- Moving items keeps the set of items of the whole family. -/
theorem exists_mem (h : Moved l i j f g) (a : α) : (∃ k, a ∈ g k) ↔ ∃ k, a ∈ f k := by
  constructor
  · rintro ⟨k,hk⟩
    by_cases hj : k = j
    · subst hj
      rcases h.mem_target.mp hk with hl | hf
      · exact ⟨i,h.mem_source.mpr (.inl hl)⟩
      · exact ⟨_,hf⟩
    · by_cases hi : k = i
      · subst hi; exact ⟨_,h.mem_source.mpr (.inr hk)⟩
      · exact ⟨k,by rwa [← h.rest k hi hj]⟩
  · rintro ⟨k,hk⟩
    by_cases hi : k = i
    · subst hi
      rcases h.mem_source.mp hk with hl | hg
      · exact ⟨j,h.mem_target.mpr (.inl hl)⟩
      · exact ⟨_,hg⟩
    · by_cases hj : k = j
      · subst hj; exact ⟨_,h.mem_target.mpr (.inr hk)⟩
      · exact ⟨k,by rwa [h.rest k hi hj]⟩

/-- An item of the new family that was not moved stands where it stood. -/
theorem mem_of_notMem (h : Moved l i j f g) {a : α} (ha : a ∉ l) {k : ι} :
    a ∈ g k ↔ a ∈ f k := by
  by_cases hi : k = i
  · subst hi; rw [h.mem_source]; simp [ha]
  · by_cases hj : k = j
    · subst hj; rw [h.mem_target]; simp [ha]
    · rw [h.rest k hi hj]

/-- An item that was moved stands in the target queue only. -/
theorem eq_target (h : Moved l i j f g) (hf : Exclusive f) {a : α} (ha : a ∈ l) {k : ι}
    (hk : a ∈ g k) : k = j := by
  have hai : a ∈ f i := h.mem_source.mpr (.inl ha)
  by_contra hj
  by_cases hi : k = i
  · subst hi
    have hn := h.source.nodup_iff.mp (hf.nodup k)
    exact (List.nodup_append.mp hn).2.2 a ha a hk rfl
  · rw [h.rest k hi hj] at hk
    exact hi (hf.unique hk hai)

theorem exclusive (h : Moved l i j f g) (hf : Exclusive f) : Exclusive g where
  nodup k := by
    by_cases hj : k = j
    · subst hj
      rw [h.target.nodup_iff]
      have hn := h.source.nodup_iff.mp (hf.nodup i)
      refine List.nodup_append.mpr ⟨(List.nodup_append.mp hn).1,hf.nodup k,?_⟩
      rintro a ha b hb rfl
      exact h.ne (hf.unique (h.mem_source.mpr (.inl ha)) hb)
    · by_cases hi : k = i
      · subst hi
        exact (List.nodup_append.mp (h.source.nodup_iff.mp (hf.nodup k))).2.1
      · rw [h.rest k hi hj]; exact hf.nodup k
  unique := by
    intro k m a hk hm
    by_cases ha : a ∈ l
    · rw [h.eq_target hf ha hk,h.eq_target hf ha hm]
    · exact hf.unique ((h.mem_of_notMem ha).mp hk) ((h.mem_of_notMem ha).mp hm)

end Moved

/-- Any number of moves between the queues of a family. -/
abbrev Rearranged (f g : ι → List α) : Prop :=
  Relation.ReflTransGen (fun f g => ∃ l i j, Moved l i j f g) f g

theorem Moved.rearranged {f g : ι → List α} {l : List α} {i j : ι} (h : Moved l i j f g) :
    Rearranged f g :=
  .single ⟨l,i,j,h⟩

namespace Rearranged

variable {f g : ι → List α}

theorem exclusive (h : Rearranged f g) (hf : Exclusive f) : Exclusive g := by
  induction h with
  | refl => exact hf
  | tail _ hm ih =>
    obtain ⟨l,i,j,hm⟩ := hm
    exact hm.exclusive ih

theorem exists_mem (h : Rearranged f g) (a : α) : (∃ k, a ∈ g k) ↔ ∃ k, a ∈ f k := by
  induction h with
  | refl => rfl
  | tail _ hm ih =>
    obtain ⟨l,i,j,hm⟩ := hm
    exact (hm.exists_mem a).trans ih

end Rearranged

/-- Exchanging one queue in the concatenation of a family. -/
theorem flatMap_update [DecidableEq ι] {f : ι → List α} {i : ι} {places : List ι} (hn : places.Nodup)
    (hi : i ∈ places) (l : List α) :
    (places.flatMap (Function.update f i l) ++ f i).Perm (places.flatMap f ++ l) := by
  induction places with
  | nil => simp at hi
  | cons j places ih =>
    obtain ⟨hj,hn⟩ := List.nodup_cons.mp hn
    by_cases hji : j = i
    · subst hji
      have hr : places.flatMap (Function.update f j l) = places.flatMap f :=
        List.flatMap_congr fun k hk => by
          rw [Function.update_of_ne (by rintro rfl; exact hj hk)]
      simp only [List.flatMap_cons,Function.update_self,hr,List.append_assoc]
      exact (List.perm_append_comm.trans (List.Perm.append_right _ List.perm_append_comm)).trans
        (by simp)
    · have hm : i ∈ places := (List.mem_cons.mp hi).resolve_left (Ne.symm hji)
      simp only [List.flatMap_cons,Function.update_of_ne hji,List.append_assoc]
      exact (ih hn hm).append_left _

end QueueFamily
end OsLabs

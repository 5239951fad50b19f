import Mathlib.Data.List.Count
import Mathlib.Data.List.Nodup
import Mathlib.Tactic

/-!
# Counting in a chained table

Keys are counted in chains: a key that is in its chain gets one more, and another one is put at the
end. When each chain has the keys of one hash, all chains together have every key once.
-/

namespace OsLabs
namespace CountingTable

variable {κ ι : Type*} [BEq κ] {ks : List κ} {c : List (κ × ℕ)} {k : κ} {n : ℕ}

/-- One more of a key. -/
def addOne (k : κ) : List (κ × ℕ) → List (κ × ℕ)
  | [] => [(k,1)]
  | e::c => if e.1 == k then (e.1,e.2+1)::c else e::addOne k c

/-- The keys of the list, each once, with the number of times that it occurs. -/
structure Counts (ks : List κ) (c : List (κ × ℕ)) : Prop where
  once : (c.map Prod.fst).Nodup
  exact : ∀ k n, (k,n) ∈ c ↔ 0 < n ∧ ks.count k = n

theorem Counts.nil : Counts ([] : List κ) [] := ⟨List.nodup_nil,by simp; omega⟩

theorem Counts.le_length (h : Counts ks c) (he : (k,n) ∈ c) : n ≤ ks.length := by
  obtain ⟨-,rfl⟩ := (h.exact k n).mp he
  exact List.count_le_length

variable [LawfulBEq κ] [DecidableEq ι]

theorem addOne_of_notMem (h : k ∉ c.map Prod.fst) : addOne k c = c ++ [(k,1)] := by
  induction c with
  | nil => rfl
  | cons e c ih =>
    obtain ⟨hne,h⟩ : k ≠ e.1 ∧ k ∉ c.map Prod.fst := by simpa [not_or] using h
    simp [addOne,hne.symm,ih h]

theorem addOne_append {c' : List (κ × ℕ)} (h : k ∉ c.map Prod.fst) :
    addOne k (c ++ (k,n)::c') = c ++ (k,n+1)::c' := by
  induction c with
  | nil => simp [addOne]
  | cons e c ih =>
    obtain ⟨hne,h⟩ : k ≠ e.1 ∧ k ∉ c.map Prod.fst := by simpa [not_or] using h
    simp [addOne,hne.symm,ih h]

theorem Counts.mem (h : Counts ks c) (hk : k ∈ ks) : (k,ks.count k) ∈ c :=
  (h.exact k _).mpr ⟨List.count_pos_iff.mpr hk,rfl⟩

theorem mem_addOne_of_ne {j : κ} (hj : j ≠ k) : (j,n) ∈ addOne k c ↔ (j,n) ∈ c := by
  induction c with
  | nil => simp [addOne,hj]
  | cons e c ih =>
    simp only [addOne]
    split
    · rename_i he
      have hne : ∀ m, (j,n) ≠ (e.1,m) := fun m h => hj ((Prod.mk.inj h).1.trans (eq_of_beq he))
      rw [List.mem_cons,List.mem_cons,or_iff_right (hne _),or_iff_right (hne e.2)]
    · rw [List.mem_cons,List.mem_cons,ih]

theorem Counts.addOne (h : Counts ks c) (k : κ) : Counts (ks ++ [k]) (addOne k c) := by
  have hothers : ∀ {j : κ} {m : ℕ}, j ≠ k →
      ((j,m) ∈ CountingTable.addOne k c ↔ 0 < m ∧ (ks ++ [k]).count j = m) := fun hj => by
    rw [mem_addOne_of_ne hj,h.exact,List.count_append,List.count_singleton,beq_false_of_ne hj.symm]
    simp
  by_cases hk : k ∈ c.map Prod.fst
  · obtain ⟨⟨j,n⟩,he,rfl⟩ := List.mem_map.mp hk
    obtain ⟨c₁,c₂,rfl⟩ := List.append_of_mem he
    obtain ⟨-,hcount⟩ := (h.exact j n).mp he
    have honce : j ∉ c₁.map Prod.fst ∧ j ∉ c₂.map Prod.fst := by
      have hn := h.once
      rw [List.map_append,List.map_cons,List.nodup_middle,List.nodup_cons,List.mem_append,not_or] at hn
      exact hn.1
    refine ⟨?_,fun i m => ?_⟩
    · rw [addOne_append honce.1]
      simpa using h.once
    · by_cases hi : i = j
      · subst hi
        rw [addOne_append honce.1]
        have h₁ : ∀ m, (i,m) ∉ c₁ := fun m hm => honce.1 (List.mem_map_of_mem hm)
        have h₂ : ∀ m, (i,m) ∉ c₂ := fun m hm => honce.2 (List.mem_map_of_mem hm)
        simp [h₁,h₂,hcount]
        omega
      · exact hothers hi
  · have hzero : ks.count k = 0 := by
      by_contra hne
      exact hk (List.mem_map_of_mem (h.mem (List.count_pos_iff.mp (Nat.pos_of_ne_zero hne))))
    refine ⟨?_,fun i m => ?_⟩
    · rw [addOne_of_notMem hk,List.map_append,List.nodup_append]
      refine ⟨h.once,by simp,fun a ha b hb hab => ?_⟩
      obtain rfl : b = k := by simpa using hb
      exact hk (hab ▸ ha)
    · by_cases hi : i = k
      · subst hi
        have hno : ∀ m, (i,m) ∉ c := fun m hm => hk (List.mem_map_of_mem hm)
        rw [addOne_of_notMem hk]
        simp [hno,hzero]
        omega
      · exact hothers hi

theorem Counts.map {κ' : Type*} [BEq κ'] [LawfulBEq κ'] {f : κ → κ'} (hf : Function.Injective f)
    (h : Counts ks c) : Counts (ks.map f) (c.map fun e => (f e.1,e.2)) := by
  refine ⟨?_,fun k n => ?_⟩
  · have hkeys : (c.map fun e => (f e.1,e.2)).map Prod.fst = (c.map Prod.fst).map f := by simp
    rw [hkeys]
    exact h.once.map hf
  · constructor
    · intro hk
      obtain ⟨⟨j,m⟩,he,hj⟩ := List.mem_map.mp hk
      obtain ⟨rfl,rfl⟩ := Prod.mk.inj hj
      rw [List.count_map_of_injective _ f hf]
      exact (h.exact j m).mp he
    · rintro ⟨hn,hc⟩
      obtain ⟨j,hj,rfl⟩ := List.mem_map.mp (List.count_pos_iff.mp (hc ▸ hn))
      rw [List.count_map_of_injective _ f hf] at hc
      exact List.mem_map.mpr ⟨(j,n),(h.exact j n).mpr ⟨hn,hc⟩,rfl⟩

/-! ### Chains -/

variable {hash : κ → ι} {chains : ι → List (κ × ℕ)}

/-- Each chain counts the keys of one hash. -/
def Spread (hash : κ → ι) (ks : List κ) (chains : ι → List (κ × ℕ)) : Prop :=
  ∀ i, Counts (ks.filter fun k => hash k = i) (chains i)

theorem Spread.insert (h : Spread hash ks chains) (k : κ) :
    Spread hash (ks ++ [k]) (Function.update chains (hash k) (addOne k (chains (hash k)))) := by
  intro i
  rw [List.filter_append]
  by_cases hi : i = hash k
  · subst hi
    rw [Function.update_self,List.filter_cons_of_pos (by simp),List.filter_nil]
    exact (h _).addOne k
  · rw [Function.update_of_ne hi,List.filter_cons_of_neg (by simpa using Ne.symm hi),List.filter_nil,
      List.append_nil]
    exact h i

theorem Spread.hash_eq (h : Spread hash ks chains) {i : ι} (he : (k,n) ∈ chains i) : hash k = i := by
  obtain ⟨hn,hc⟩ := ((h i).exact k n).mp he
  have hmem := List.count_pos_iff.mp (hc ▸ hn)
  simpa using (List.mem_filter.mp hmem).2

theorem Spread.collect (h : Spread hash ks chains) {is : List ι} (hn : is.Nodup)
    (hall : ∀ k ∈ ks, hash k ∈ is) : Counts ks (is.flatMap chains) := by
  refine ⟨?_,fun k n => ?_⟩
  · rw [List.map_flatMap,List.nodup_flatMap]
    refine ⟨fun i _ => (h i).once,hn.imp fun hij => ?_⟩
    intro k hi hj
    obtain ⟨⟨_,m⟩,hm,rfl⟩ := List.mem_map.mp hi
    obtain ⟨⟨_,m'⟩,hm',rfl⟩ := List.mem_map.mp hj
    exact hij ((h.hash_eq hm).symm.trans (h.hash_eq hm'))
  · rw [List.mem_flatMap]
    constructor
    · rintro ⟨i,-,he⟩
      have hk := h.hash_eq he
      rw [(h i).exact,List.count_filter (by simpa using hk)] at he
      exact he
    · rintro ⟨hpos,hc⟩
      refine ⟨hash k,hall k (List.count_pos_iff.mp (hc ▸ hpos)),?_⟩
      rw [(h _).exact,List.count_filter (by simp)]
      exact ⟨hpos,hc⟩

end CountingTable
end OsLabs

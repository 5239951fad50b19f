import Mathlib.Data.List.Nodup
import Mathlib.Tactic

/-!
# Lists with a pointer back

The nodes of these lists hold the address of the next node and the address of the place that
points to them, which is the head of a list or the field `next` of the node before. A node can so
be taken out of its list without knowing in which list it is. `Linked h k l` says that
the nodes from the place `k` on are those of `l`, and `Holds` that a family of heads has these
lists. Each operation is the one on lists, in the list that it changes, and leaves the others
alone.
-/

namespace OsLabs
namespace HashLists

variable {β ν : Type}

/-- A place that holds the address of a node. -/
inductive Loc (β ν : Type)
  | first (b : β)
  | next (n : ν)
  deriving DecidableEq

structure Heap (β ν : Type) where
  slot : Loc β ν → Option ν
  pprev : ν → Option (Loc β ν)

/-! ## Lists from a place on -/

/-- The nodes from the place on. -/
def Linked (h : Heap β ν) : Loc β ν → List ν → Prop
  | k, [] => h.slot k = none
  | k, x::xs => h.slot k = some x ∧ h.pprev x = some k ∧ Linked h (.next x) xs

/-- Only the place `k` and the nodes of `S` have been written. -/
structure Frame (h h' : Heap β ν) (k : Loc β ν) (S : List ν) : Prop where
  slot : ∀ j, j ≠ k → (∀ x ∈ S, j ≠ .next x) → h'.slot j = h.slot j
  pprev : ∀ x, x ∉ S → h'.pprev x = h.pprev x

section Segments

variable {h h' : Heap β ν} {k : Loc β ν} {l xs S new : List ν} {n : ν}

/-- Nothing that the list goes through has been written. -/
theorem Linked.congr (hl : Linked h k l) (hk : h'.slot k = h.slot k)
    (hslot : ∀ x ∈ l, h'.slot (.next x) = h.slot (.next x))
    (hpprev : ∀ x ∈ l, h'.pprev x = h.pprev x) : Linked h' k l := by
  induction l generalizing k with
  | nil => exact hk.trans hl
  | cons x xs ih =>
    obtain ⟨h1,h2,h3⟩ := hl
    exact ⟨hk.trans h1,(hpprev x (.head _)).trans h2,ih h3 (hslot x (.head _))
      (fun y hy => hslot y (.tail _ hy)) fun y hy => hpprev y (.tail _ hy)⟩

theorem Linked.frame (hl : Linked h k l) {j : Loc β ν} (hf : Frame h h' j S) (hk : k ≠ j)
    (hj : ∀ x ∈ l, Loc.next x ≠ j) (hS : ∀ x ∈ S, k ≠ .next x) (hdis : ∀ x ∈ l, x ∉ S) :
    Linked h' k l := by
  refine hl.congr (hf.slot k hk hS) (fun x hx => hf.slot _ (hj x hx) fun y hy he => ?_)
    fun x hx => hf.pprev x (hdis x hx)
  exact hdis x hx (Loc.next.inj he ▸ hy)

/-- A change at the node `n` and after it is a change of the whole list. -/
theorem Linked.splice {op : Heap β ν → Option (Heap β ν)} {pre : List ν}
    (hl : Linked h k (pre ++ n::xs)) (hS : ∀ x ∈ pre, x ∉ S) (hn : pre.Nodup)
    (hk : ∀ x ∈ pre ++ S, k ≠ .next x)
    (hlocal : ∀ j, Linked h j (n::xs) → (∀ x ∈ S, j ≠ .next x) →
      ∃ h', op h = some h' ∧ Linked h' j new ∧ Frame h h' j S) :
    ∃ h', op h = some h' ∧ Linked h' k (pre ++ new) ∧ Frame h h' k (pre ++ S) := by
  induction pre generalizing k with
  | nil => exact hlocal k hl hk
  | cons x pre ih =>
    obtain ⟨h1,h2,h3⟩ := hl
    obtain ⟨hx,hn⟩ := List.nodup_cons.mp hn
    have hxS := hS x (.head _)
    obtain ⟨h',hop,hlink,hf⟩ := ih h3 (fun y hy => hS y (.tail _ hy)) hn fun y hy he => by
      rcases List.mem_append.mp hy with hy | hy
      · exact hx (Loc.next.inj he ▸ hy)
      · exact hxS (Loc.next.inj he ▸ hy)
    have hkx : k ≠ .next x := hk x (List.mem_append_left _ (.head _))
    refine ⟨h',hop,⟨?_,?_,hlink⟩,fun j hj hjS => ?_,fun y hy => ?_⟩
    · rw [hf.slot k hkx fun y hy => hk y (List.mem_cons_of_mem x hy)]
      exact h1
    · rw [hf.pprev x fun hc => (List.mem_append.mp hc).elim hx hxS]
      exact h2
    · exact hf.slot j (hjS x (.head _)) fun y hy => hjS y (List.mem_cons_of_mem x hy)
    · exact hf.pprev y fun hc => hy (List.mem_cons_of_mem x hc)

end Segments

/-! ## The operations -/

section Operations

variable [DecidableEq ν]

def Heap.setPprev (h : Heap β ν) (n : ν) (k : Option (Loc β ν)) : Heap β ν :=
  { h with pprev := Function.update h.pprev n k }

/-- `if (x) x->pprev = k`. -/
def linkBack (x : Option ν) (k : Loc β ν) (h : Heap β ν) : Heap β ν :=
  match x with
  | none => h
  | some x => h.setPprev x (some k)

@[simp] theorem pprev_setPprev (h : Heap β ν) (n m : ν) (k : Option (Loc β ν)) :
    (h.setPprev n k).pprev m = if m = n then k else h.pprev m := Function.update_apply ..

@[simp] theorem slot_setPprev (h : Heap β ν) (n : ν) (k : Option (Loc β ν)) :
    (h.setPprev n k).slot = h.slot := rfl

@[simp] theorem slot_linkBack (x : Option ν) (k : Loc β ν) (h : Heap β ν) :
    (linkBack x k h).slot = h.slot := by
  cases x <;> rfl

@[simp] theorem pprev_linkBack (x : Option ν) (k : Loc β ν) (h : Heap β ν) (m : ν) :
    (linkBack x k h).pprev m = if x = some m then some k else h.pprev m := by
  cases x with
  | none => simp [linkBack]
  | some y => simp [linkBack,eq_comm]

variable [DecidableEq β]

def Heap.set (h : Heap β ν) (k : Loc β ν) (x : Option ν) : Heap β ν :=
  { h with slot := Function.update h.slot k x }

def hlistEmpty (b : β) (h : Heap β ν) : Bool := (h.slot (.first b)).isNone

def initHlistHead (b : β) (h : Heap β ν) : Heap β ν := h.set (.first b) none

def initHlistNode (n : ν) (h : Heap β ν) : Heap β ν := (h.set (.next n) none).setPprev n none

def hlistAddHead (n : ν) (b : β) (h : Heap β ν) : Heap β ν :=
  let first := h.slot (.first b)
  let h := h.set (.next n) first
  let h := linkBack first (.next n) h
  let h := h.set (.first b) (some n)
  h.setPprev n (some (.first b))

def hlistDel (n : ν) (h : Heap β ν) : Option (Heap β ν) := do
  let next := h.slot (.next n)
  let k ← h.pprev n
  let h := h.set k next
  let h := linkBack next k h
  return initHlistNode n h

@[simp] theorem slot_set (h : Heap β ν) (k j : Loc β ν) (x : Option ν) :
    (h.set k x).slot j = if j = k then x else h.slot j := Function.update_apply ..

@[simp] theorem pprev_set (h : Heap β ν) (k : Loc β ν) (x : Option ν) :
    (h.set k x).pprev = h.pprev := rfl

@[simp] theorem slot_initHlistNode (n : ν) (h : Heap β ν) (j : Loc β ν) :
    (initHlistNode n h).slot j = if j = .next n then none else h.slot j := slot_set ..

@[simp] theorem pprev_initHlistNode (n : ν) (h : Heap β ν) (m : ν) :
    (initHlistNode n h).pprev m = if m = n then none else h.pprev m := pprev_setPprev ..

variable {h h' : Heap β ν} {k : Loc β ν} {l xs : List ν} {n : ν}

theorem linked_addHead {b : β} (hl : Linked h (.first b) l) (hn : n ∉ l) (hnodup : l.Nodup) :
    Linked (hlistAddHead n b h) (.first b) (n::l) ∧
      Frame h (hlistAddHead n b h) (.first b) (n::l) := by
  constructor
  · refine ⟨by simp [hlistAddHead],by simp [hlistAddHead],?_⟩
    cases l with
    | nil =>
      have hfirst : h.slot (.first b) = none := hl
      simp [hlistAddHead,Linked,hfirst]
    | cons x xs =>
      obtain ⟨h1,h2,h3⟩ := hl
      obtain ⟨hnx,hnxs⟩ := List.ne_and_not_mem_of_not_mem_cons hn
      obtain ⟨hx,-⟩ := List.nodup_cons.mp hnodup
      have hne : x ≠ n := fun hc => hnx hc.symm
      refine ⟨by simp [hlistAddHead,h1],by simp [hlistAddHead,h1,hne],h3.congr ?_ ?_ ?_⟩
      · simp [hlistAddHead,hne]
      · intro y hy
        have hyn : y ≠ n := fun hc => hnxs (hc ▸ hy)
        simp [hlistAddHead,hyn]
      · intro y hy
        have hyn : y ≠ n := fun hc => hnxs (hc ▸ hy)
        have hxy : x ≠ y := fun hc => hx (hc ▸ hy)
        simp [hlistAddHead,h1,hyn,hxy]
  · constructor
    · intro j hj hS
      have hjn := hS n (.head _)
      simp [hlistAddHead,hj,hjn]
    · intro x hx
      obtain ⟨hxn,hxl⟩ := List.ne_and_not_mem_of_not_mem_cons hx
      cases l with
      | nil =>
        have hfirst : h.slot (.first b) = none := hl
        simp [hlistAddHead,hxn,hfirst]
      | cons y ys =>
        have hyx : y ≠ x := fun hc => hxl (hc ▸ .head _)
        simp [hlistAddHead,hxn,hl.1,hyx]

theorem linked_del (hl : Linked h k (n::xs)) (hnodup : (n::xs).Nodup)
    (hk : ∀ x ∈ n::xs, k ≠ .next x) :
    ∃ h', hlistDel n h = some h' ∧ Linked h' k xs ∧ Frame h h' k (n::xs) := by
  obtain ⟨h1,h2,h3⟩ := hl
  obtain ⟨hn,hxs⟩ := List.nodup_cons.mp hnodup
  have hkn := hk n (.head _)
  refine ⟨_,by rw [hlistDel,h2]; rfl,?_,?_⟩
  · cases xs with
    | nil =>
      have hnone : h.slot (.next n) = none := h3
      simp [Linked,hkn,hnone]
    | cons x xs =>
      obtain ⟨h4,h5,h6⟩ := h3
      obtain ⟨hnx,hnxs⟩ := List.ne_and_not_mem_of_not_mem_cons hn
      obtain ⟨hx,-⟩ := List.nodup_cons.mp hxs
      have hne : x ≠ n := fun hc => hnx hc.symm
      have hkx := hk x (.tail _ (.head _))
      refine ⟨by simp [hkn,h4],by simp [hne,h4],h6.congr ?_ ?_ ?_⟩
      · simp [hne,hkx.symm]
      · intro y hy
        have hyn : y ≠ n := fun hc => hnxs (hc ▸ hy)
        have hky := hk y (.tail _ (.tail _ hy))
        simp [hyn,hky.symm]
      · intro y hy
        have hyn : y ≠ n := fun hc => hnxs (hc ▸ hy)
        have hxy : x ≠ y := fun hc => hx (hc ▸ hy)
        simp [hyn,h4,hxy]
  · constructor
    · intro j hj hS
      simp [hj,hS n (.head _)]
    · intro x hx
      obtain ⟨hxn,hxl⟩ := List.ne_and_not_mem_of_not_mem_cons hx
      cases xs with
      | nil =>
        have hnone : h.slot (.next n) = none := h3
        simp [hxn,hnone]
      | cons y ys =>
        have hyx : y ≠ x := fun hc => hxl (hc ▸ .head _)
        simp [hxn,h3.1,hyx]

end Operations


/-! ## Families of lists -/

/-- The heads have these lists, and no node is in two of them or twice in one. -/
structure Holds (h : Heap β ν) (ls : β → List ν) : Prop where
  linked : ∀ b, Linked h (.first b) (ls b)
  nodup : ∀ b, (ls b).Nodup
  disjoint : ∀ b b' x, x ∈ ls b → x ∈ ls b' → b = b'

section Families

variable [DecidableEq β] {h h' : Heap β ν} {ls : β → List ν} {b : β} {l S : List ν} {n : ν}

theorem Holds.update (H : Holds h ls) (hl : Linked h' (.first b) l)
    (hf : Frame h h' (.first b) S) (hS : ∀ b' ≠ b, ∀ x ∈ ls b', x ∉ S) (hnodup : l.Nodup)
    (hsub : l ⊆ S) : Holds h' (Function.update ls b l) := by
  refine ⟨fun b' => ?_,fun b' => ?_,fun b₁ b₂ x h1 h2 => ?_⟩
  · by_cases hb : b' = b
    · subst hb
      rwa [Function.update_self]
    · rw [Function.update_of_ne hb]
      exact (H.linked b').frame hf (by simpa using hb) (by simp) (by simp) (hS b' hb)
  · by_cases hb : b' = b
    · subst hb
      rwa [Function.update_self]
    · rw [Function.update_of_ne hb]
      exact H.nodup b'
  · by_cases hb1 : b₁ = b <;> by_cases hb2 : b₂ = b
    · rw [hb1,hb2]
    · subst hb1
      rw [Function.update_self] at h1
      rw [Function.update_of_ne hb2] at h2
      exact absurd (hsub h1) (hS b₂ hb2 x h2)
    · subst hb2
      rw [Function.update_of_ne hb1] at h1
      rw [Function.update_self] at h2
      exact absurd (hsub h2) (hS b₁ hb1 x h1)
    · rw [Function.update_of_ne hb1] at h1
      rw [Function.update_of_ne hb2] at h2
      exact H.disjoint b₁ b₂ x h1 h2

variable [DecidableEq ν]

/-- A node that is in no list becomes the first one of a list. -/
theorem Holds.addHead (H : Holds h ls) (hn : ∀ b', n ∉ ls b') :
    Holds (hlistAddHead n b h) (Function.update ls b (n::ls b)) := by
  obtain ⟨hl,hf⟩ := linked_addHead (H.linked b) (hn b) (H.nodup b)
  refine H.update hl hf (fun b' hb x hx hc => ?_) (List.nodup_cons.mpr ⟨hn b,H.nodup b⟩)
    (List.Subset.refl _)
  rcases List.mem_cons.mp hc with rfl | hc
  · exact hn b' hx
  · exact hb (H.disjoint b' b x hx hc)

theorem Holds.del (H : Holds h ls) (hn : n ∈ ls b) :
    ∃ h', hlistDel n h = some h' ∧ Holds h' (Function.update ls b ((ls b).erase n)) := by
  obtain ⟨pre,xs,-,hls,herase⟩ := List.exists_erase_eq hn
  have hnodup := H.nodup b
  have hlink := H.linked b
  rw [hls] at hnodup hlink
  obtain ⟨hn1,hn2,hdis⟩ := List.nodup_append.mp hnodup
  obtain ⟨h',hdel,hl,hf⟩ := hlink.splice (S := n::xs)
    (fun x hx hc => hdis x hx x hc rfl) hn1 (by simp) fun j hj hS => linked_del hj hn2 hS
  rw [herase]
  refine ⟨h',hdel,H.update hl hf (fun b' hb x hx hc => ?_) ?_ ?_⟩
  · rw [← hls] at hc
    exact hb (H.disjoint b' b x hx hc)
  · rw [← herase]
    exact (H.nodup b).erase n
  · exact List.append_subset.mpr ⟨List.subset_append_left _ _,fun x hx =>
      List.mem_append_right _ (List.mem_cons_of_mem n hx)⟩

end Families

end HashLists
end OsLabs

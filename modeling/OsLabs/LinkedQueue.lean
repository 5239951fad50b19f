import Mathlib.Data.List.Basic
import Mathlib.Data.List.Nodup
import Mathlib.Data.List.Range
import Mathlib.Tactic

/-!
# Singly linked lists with a tail pointer

A list in memory is a heap of cells together with a pointer to its first and one to its last
cell. The operations follow the pointers and fail where they would go through a missing cell.
`Linked q l` says that the cells from the head on are the ones of `l`, each with its address;
under it every operation succeeds and is the operation on lists.
-/

namespace OsLabs
namespace LinkedQueue

variable {α : Type}

abbrev Addr := ℕ

structure Cell (α : Type) where
  val : α
  next : Option Addr

/-- The heap, the two pointers, and the first address that was never allocated. -/
structure Queue (α : Type) where
  cells : Addr → Option (Cell α)
  head : Option Addr
  tail : Option Addr
  fresh : Addr

def empty (α : Type) : Queue α where
  cells := fun _ => none
  head := none
  tail := none
  fresh := 0

/-- A new cell that is not linked yet, at the address `q.fresh`. -/
def alloc (x : α) (q : Queue α) : Queue α :=
  { q with cells := Function.update q.cells q.fresh (some ⟨x,none⟩), fresh := q.fresh+1 }

/-- Link a cell behind the last one. -/
def linkLast (a : Addr) (q : Queue α) : Option (Queue α) :=
  match q.head with
  | none => some { q with head := some a, tail := some a }
  | some _ => do
    let t ← q.tail
    let c ← q.cells t
    return { q with
      cells := Function.update q.cells t (some { c with next := some a }), tail := some a }

/-- Take the first cell out of the list and free it; nothing if there is none. -/
def popFirst (q : Queue α) : Option (Option α × Queue α) :=
  match q.head with
  | none => some (none,q)
  | some a => do
    let c ← q.cells a
    return (some c.val,{ q with
      cells := Function.update q.cells a none
      head := c.next
      tail := if c.next = none then none else q.tail })

/-- The first cell with a property, from a pointer on. -/
def findFrom (p : α → Bool) (q : Queue α) : ℕ → Option Addr → Option (Option Addr)
  | _, none => some none
  | 0, some _ => none
  | n+1, some a => do
    let c ← q.cells a
    if p c.val then return some a else findFrom p q n c.next

/-- Unlink the first cell with a property behind the cell `prev`. -/
def unlinkAfter (p : α → Bool) (q : Queue α) : ℕ → Addr → Option Addr →
    Option (Option Addr × Queue α)
  | _, _, none => some (none,q)
  | 0, _, some _ => none
  | n+1, prev, some a => do
    let c ← q.cells a
    if p c.val then do
      let b ← q.cells prev
      return (some a,{ q with
        cells := Function.update q.cells prev (some { b with next := c.next })
        tail := if q.tail = some a then some prev else q.tail })
    else unlinkAfter p q n a c.next

/-- Unlink the first cell with a property; it is not freed. -/
def unlinkFirst (p : α → Bool) (q : Queue α) : Option (Option Addr × Queue α) :=
  match q.head with
  | none => some (none,q)
  | some a => do
    let c ← q.cells a
    if p c.val then
      return (some a,{ q with head := c.next, tail := if c.next = none then none else q.tail })
    else unlinkAfter p q q.fresh a c.next

/-- Free a cell. -/
def free (a : Addr) (q : Queue α) : Queue α := { q with cells := Function.update q.cells a none }

/-! ## Segments -/

/-- The cells `l` lie one after the other between two pointers. -/
def Seg (cells : Addr → Option (Cell α)) : Option Addr → List (Addr × α) → Option Addr → Prop
  | p, [], r => p = r
  | p, (a,x)::l, r => p = some a ∧ ∃ n, cells a = some ⟨x,n⟩ ∧ Seg cells n l r

abbrev addrs (l : List (Addr × α)) : List Addr := l.map Prod.fst

structure Linked (q : Queue α) (l : List (Addr × α)) : Prop where
  seg : Seg q.cells q.head l none
  nodup : (addrs l).Nodup
  last : q.tail = (addrs l).getLast?
  fresh : ∀ a, q.fresh ≤ a → q.cells a = none

section Segments

variable {cells : Addr → Option (Cell α)} {p r : Option Addr} {l m : List (Addr × α)} {a : Addr}

theorem addrs_append : addrs (l ++ m) = addrs l ++ addrs m := List.map_append

theorem seg_append : Seg cells p (l ++ m) r ↔ ∃ n, Seg cells p l n ∧ Seg cells n m r := by
  induction l generalizing p with
  | nil => simp [Seg]
  | cons c l ih =>
    obtain ⟨a,x⟩ := c
    simp only [List.cons_append,Seg,ih]
    constructor
    · rintro ⟨rfl,n,hc,k,hl,hm⟩
      exact ⟨k,⟨rfl,n,hc,hl⟩,hm⟩
    · rintro ⟨k,⟨rfl,n,hc,hl⟩,hm⟩
      exact ⟨rfl,n,hc,k,hl,hm⟩

/-- A segment does not depend on the cells outside of it. -/
theorem Seg.update (h : Seg cells p l r) (ha : a ∉ addrs l) (c : Option (Cell α)) :
    Seg (Function.update cells a c) p l r := by
  induction l generalizing p with
  | nil => exact h
  | cons b l ih =>
    obtain ⟨b,x⟩ := b
    obtain ⟨rfl,n,hc,hl⟩ := h
    have hb : b ≠ a := by
      rintro rfl
      exact ha (by simp)
    refine ⟨rfl,n,?_,ih hl fun hm => ha ?_⟩
    · rw [Function.update_of_ne hb,hc]
    · exact List.mem_cons_of_mem _ hm

theorem Seg.start (h : Seg cells p l none) : p = (addrs l).head? := by
  cases l with
  | nil => exact h
  | cons c l => exact h.1

theorem Seg.cell (h : Seg cells p l r) (ha : a ∈ addrs l) : cells a ≠ none := by
  induction l generalizing p with
  | nil => cases ha
  | cons b l ih =>
    obtain ⟨b,x⟩ := b
    obtain ⟨rfl,n,hc,hl⟩ := h
    rcases List.mem_cons.mp ha with rfl | ha
    · rw [hc]
      simp
    · exact ih hl ha

end Segments

/-! ## The operations -/

/-- The first match is taken out of a list. -/
theorem perm_eraseP {p : α → Bool} {l : List α} {a : α} (h : l.find? p = some a) :
    l.Perm (a::l.eraseP p) := by
  induction l with
  | nil => simp at h
  | cons b l ih =>
    by_cases hb : p b = true
    · obtain rfl : b = a := by simpa [hb] using h
      rw [List.eraseP_cons_of_pos hb]
    · rw [List.eraseP_cons_of_neg hb]
      have hl : l.find? p = some a := by simpa [hb] using h
      exact ((ih hl).cons b).trans (List.Perm.swap _ _ _)

section Operations

variable {q : Queue α} {l : List (Addr × α)} {a : Addr} {x : α} {p : α → Bool}

theorem linked_empty : Linked (empty α) [] :=
  ⟨rfl,List.nodup_nil,rfl,fun _ _ => rfl⟩

theorem Linked.head_eq (h : Linked q l) : q.head = (addrs l).head? := h.seg.start

theorem Linked.lt_fresh (h : Linked q l) (ha : a ∈ addrs l) : a < q.fresh := by
  by_contra hge
  exact h.seg.cell ha (h.fresh a (Nat.le_of_not_lt hge))

/-- There are at most as many cells as were allocated. -/
theorem Linked.length_le (h : Linked q l) : l.length ≤ q.fresh := by
  have hsub : addrs l ⊆ List.range q.fresh := fun a ha => List.mem_range.mpr (h.lt_fresh ha)
  have hle := (h.nodup.subperm hsub).length_le
  rwa [List.length_map,List.length_range] at hle

theorem Linked.cell_eq {pre : List (Addr × α)} (h : Linked q (pre ++ (a,x)::l)) :
    q.cells a = some ⟨x,(addrs l).head?⟩ := by
  obtain ⟨n,-,-,k,hc,hl⟩ := seg_append.mp h.seg
  rw [hc,hl.start]

theorem Linked.head_cell (h : Linked q ((a,x)::l)) : q.cells a = some ⟨x,(addrs l).head?⟩ := by
  have h' : Linked q ([] ++ (a,x)::l) := h
  exact h'.cell_eq

theorem Linked.alloc (h : Linked q l) (x : α) : Linked (alloc x q) l := by
  have hn : q.fresh ∉ addrs l := fun hm => lt_irrefl _ (h.lt_fresh hm)
  refine ⟨h.seg.update hn _,h.nodup,h.last,fun a ha => ?_⟩
  have hlt : q.fresh < a := ha
  exact (Function.update_of_ne hlt.ne' ..).trans (h.fresh a hlt.le)

theorem Linked.free (h : Linked q l) (ha : a ∉ addrs l) : Linked (free a q) l := by
  refine ⟨h.seg.update ha _,h.nodup,h.last,fun b hb => ?_⟩
  by_cases hba : b = a
  · rw [hba]
    exact Function.update_self ..
  · exact (Function.update_of_ne hba ..).trans (h.fresh b hb)

theorem Linked.append (h : Linked q l) (x : α) :
    ∃ q', linkLast q.fresh (LinkedQueue.alloc x q) = some q' ∧ Linked q' (l ++ [(q.fresh,x)]) ∧
      q'.fresh = q.fresh+1 := by
  have hn : q.fresh ∉ addrs l := fun hm => lt_irrefl _ (h.lt_fresh hm)
  have hnodup : (addrs (l ++ [(q.fresh,x)])).Nodup := by
    rw [addrs_append]
    exact h.nodup.append (List.nodup_singleton _) (by simpa using hn)
  have hlast : some q.fresh = (addrs (l ++ [(q.fresh,x)])).getLast? := by simp
  have hhead : (LinkedQueue.alloc x q).head = (addrs l).head? := h.head_eq
  have hnew : (LinkedQueue.alloc x q).cells q.fresh = some ⟨x,none⟩ := Function.update_self ..
  have halloc := h.alloc x
  rcases List.eq_nil_or_concat' l with rfl | ⟨pre,⟨t,y⟩,rfl⟩
  · refine ⟨{ LinkedQueue.alloc x q with head := some q.fresh, tail := some q.fresh },?_,
      ⟨⟨rfl,none,hnew,rfl⟩,hnodup,hlast,halloc.fresh⟩,rfl⟩
    rw [linkLast,hhead]
    rfl
  · have hcell := halloc.cell_eq
    have htail : (LinkedQueue.alloc x q).tail = some t := h.last.trans (by simp)
    have ht : t ∈ addrs (pre ++ [(t,y)]) := by simp
    have hne : q.fresh ≠ t := fun he => hn (he ▸ ht)
    have hpre : t ∉ addrs pre := by
      have hd := h.nodup
      rw [addrs_append] at hd
      exact fun hm => (List.disjoint_of_nodup_append hd) hm (by simp)
    refine ⟨{ LinkedQueue.alloc x q with
      cells := Function.update (LinkedQueue.alloc x q).cells t (some ⟨y,some q.fresh⟩)
      tail := some q.fresh },?_,⟨?_,hnodup,hlast,fun a ha => ?_⟩,rfl⟩
    · cases hp : (addrs (pre ++ [(t,y)])).head? with
      | none => simp at hp
      | some b =>
        rw [hp] at hhead
        simp only [linkLast,hhead,htail,Option.bind_eq_bind,Option.bind_some,hcell]
        rfl
    · obtain ⟨n,hseg,rfl,-⟩ := seg_append.mp halloc.seg
      rw [List.append_assoc]
      refine seg_append.mpr ⟨some t,hseg.update hpre _,rfl,some q.fresh,Function.update_self ..,?_⟩
      exact ⟨rfl,none,(Function.update_of_ne hne ..).trans hnew,rfl⟩
    · have hta : a ≠ t := (lt_of_lt_of_le (h.lt_fresh ht) (Nat.le_of_succ_le ha)).ne'
      exact (Function.update_of_ne hta ..).trans (halloc.fresh a ha)

theorem Linked.pop_nil (h : Linked q []) : popFirst q = some (none,q) := by
  have hhead : q.head = none := h.head_eq
  rw [popFirst,hhead]

theorem Linked.tail_eq (h : Linked q ((a,x)::l)) :
    (if (addrs l).head? = none then none else q.tail) = (addrs l).getLast? := by
  rw [h.last]
  cases l with
  | nil => rfl
  | cons c l => simp

theorem Linked.pop_cons (h : Linked q ((a,x)::l)) :
    ∃ q', popFirst q = some (some x,q') ∧ Linked q' l := by
  have hhead : q.head = some a := h.head_eq
  have hcell : q.cells a = some ⟨x,(addrs l).head?⟩ := h.head_cell
  obtain ⟨-,n,hc,hl⟩ := h.seg
  obtain ⟨ha,hnodup⟩ := List.nodup_cons.mp h.nodup
  rw [hl.start] at hl
  refine ⟨{ q with
    cells := Function.update q.cells a none
    head := (addrs l).head?
    tail := if (addrs l).head? = none then none else q.tail },?_,⟨hl.update ha _,hnodup,h.tail_eq,?_⟩⟩
  · simp only [popFirst,hhead,hcell,Option.bind_eq_bind,Option.bind_some]
    rfl
  · intro b hb
    by_cases hba : b = a
    · rw [hba]
      exact Function.update_self ..
    · exact (Function.update_of_ne hba ..).trans (h.fresh b hb)

theorem Linked.findFrom {pre : List (Addr × α)} {n : ℕ} (h : Linked q (pre ++ l))
    (hn : l.length ≤ n) : findFrom p q n (addrs l).head? = some ((l.find? (p ·.2)).map Prod.fst) := by
  induction l generalizing pre n with
  | nil => cases n <;> rfl
  | cons c l ih =>
    obtain ⟨a,x⟩ := c
    cases n with
    | zero => simp at hn
    | succ n =>
      have hcell := h.cell_eq
      simp only [List.map_cons,List.head?_cons,LinkedQueue.findFrom,hcell,Option.bind_eq_bind,
        Option.bind_some]
      cases hp : p x with
      | true => simp [hp]
      | false =>
        rw [List.append_cons] at h
        simpa [hp] using ih h (Nat.le_of_succ_le_succ hn)

theorem Linked.find (h : Linked q l) :
    LinkedQueue.findFrom p q q.fresh q.head = some ((l.find? (p ·.2)).map Prod.fst) := by
  rw [h.head_eq]
  have h' : Linked q ([] ++ l) := h
  exact h'.findFrom h.length_le

theorem Linked.unlinkAfter {pre : List (Addr × α)} {b : Addr} {y : α} {n : ℕ}
    (h : Linked q (pre ++ (b,y)::l)) (hn : l.length ≤ n) :
    ∃ q', unlinkAfter p q n b (addrs l).head? = some ((l.find? (p ·.2)).map Prod.fst,q') ∧
      Linked q' (pre ++ (b,y)::l.eraseP (p ·.2)) ∧ q'.fresh = q.fresh := by
  induction l generalizing pre b y n with
  | nil => cases n <;> exact ⟨q,rfl,h,rfl⟩
  | cons c l ih =>
    obtain ⟨a,x⟩ := c
    cases n with
    | zero => simp at hn
    | succ n =>
      have hb := h.cell_eq
      have hshift := h
      rw [List.append_cons] at hshift
      have ha := hshift.cell_eq
      simp only [List.map_cons,List.head?_cons,LinkedQueue.unlinkAfter,ha,Option.bind_eq_bind,
        Option.bind_some]
      cases hp : p x with
      | false =>
        obtain ⟨q',hq,hl,hfresh⟩ := ih hshift (Nat.le_of_succ_le_succ hn)
        rw [← List.append_cons] at hl
        exact ⟨q',by simpa [hp] using hq,by simpa [hp] using hl,hfresh⟩
      | true =>
        refine ⟨{ q with
          cells := Function.update q.cells b (some ⟨y,(addrs l).head?⟩)
          tail := if q.tail = some a then some b else q.tail },?_,?_,rfl⟩
        · simp [hp,hb]
        · have hnodup := h.nodup
          rw [addrs_append] at hnodup
          obtain ⟨hpre,hrest,hdisj⟩ := List.nodup_append'.mp hnodup
          obtain ⟨hbl,hal⟩ := List.nodup_cons.mp hrest
          obtain ⟨hal,hlnodup⟩ := List.nodup_cons.mp hal
          have hbpre : b ∉ addrs pre := fun hm => hdisj hm (by simp)
          have hbl' : b ∉ addrs l := fun hm => hbl (List.mem_cons_of_mem _ hm)
          rw [List.eraseP_cons_of_pos (p := fun c : Addr × α => p c.2) hp]
          refine ⟨?_,?_,?_,?_⟩
          · obtain ⟨m,hseg,rfl,-,-,rfl,k,hk,hl⟩ := seg_append.mp h.seg
            rw [hl.start] at hl
            exact seg_append.mpr ⟨some b,hseg.update hbpre _,rfl,_,Function.update_self ..,
              hl.update hbl' _⟩
          · rw [addrs_append]
            refine List.nodup_append'.mpr ⟨hpre,List.nodup_cons.mpr ⟨hbl',hlnodup⟩,?_⟩
            intro u hu hm
            rcases List.mem_cons.mp hm with rfl | hm
            · exact hbpre hu
            · exact hdisj hu (List.mem_cons_of_mem _ (List.mem_cons_of_mem _ hm))
          · -- the last cell was the one that is unlinked, or it stays
            simp only [h.last,List.map_append,List.map_cons,List.getLast?_append,
              List.getLast?_cons_cons]
            cases hl : (addrs l).getLast? with
            | none =>
              obtain rfl : l = [] := by simpa using hl
              simp
            | some d =>
              have hd : d ∈ addrs l := List.mem_of_getLast? hl
              have hne : d ≠ a := fun he => hal (he ▸ hd)
              obtain ⟨e,l,rfl⟩ : ∃ e l', l = e::l' := by
                cases l with
                | nil => simp at hl
                | cons e l' => exact ⟨e,l',rfl⟩
              simp only [List.map_cons] at hl
              simp [List.getLast?_cons_cons,hl,hne]
          · intro u hu
            have hub : u ≠ b := by
              rintro rfl
              exact absurd (h.fresh u hu) (by rw [hb]; simp)
            exact (Function.update_of_ne hub ..).trans (h.fresh u hu)

theorem Linked.unlink (h : Linked q l) :
    ∃ q', unlinkFirst p q = some ((l.find? (p ·.2)).map Prod.fst,q') ∧
      Linked q' (l.eraseP (p ·.2)) ∧ q'.fresh = q.fresh := by
  have hhead := h.head_eq
  cases l with
  | nil =>
    refine ⟨q,?_,h,rfl⟩
    rw [unlinkFirst,hhead]
    rfl
  | cons c l =>
    obtain ⟨a,x⟩ := c
    have hcell : q.cells a = some ⟨x,(addrs l).head?⟩ := h.head_cell
    simp only [List.map_cons,List.head?_cons] at hhead
    simp only [unlinkFirst,hhead,hcell,Option.bind_eq_bind,Option.bind_some]
    cases hp : p x with
    | true =>
      obtain ⟨-,n,hc,hl⟩ := h.seg
      rw [hl.start] at hl
      rw [List.eraseP_cons_of_pos (p := fun c : Addr × α => p c.2) hp]
      refine ⟨{ q with
        head := (addrs l).head?
        tail := if (addrs l).head? = none then none else q.tail },by simp [hp],?_,rfl⟩
      exact ⟨hl,(List.nodup_cons.mp h.nodup).2,h.tail_eq,h.fresh⟩
    | false =>
      have hn : l.length ≤ q.fresh := (Nat.le_succ _).trans h.length_le
      have h' : Linked q ([] ++ (a,x)::l) := h
      obtain ⟨q',hq,hl,hfresh⟩ := h'.unlinkAfter (p := p) hn
      exact ⟨q',by simpa [hp] using hq,by simpa [hp] using hl,hfresh⟩

end Operations

end LinkedQueue
end OsLabs

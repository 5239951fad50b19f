import Mathlib.Data.List.Basic
import Mathlib.Data.List.Nodup
import Mathlib.Data.List.Range
import Mathlib.Tactic
import OsLabs.Transition

/-!
# Doubly linked lists

A list in memory is a store of nodes, each with a pointer to the next and one to the previous
node, together with a pointer to its first and one to its last node. The operations follow the
pointers and fail where they would go through a missing node. `Linked q l` says that the nodes
from the head on are the ones of `l`, each with its address, linked in both directions; under it
every operation succeeds and is the operation on lists. `Simulates` carries this over to runs.
-/

namespace OsLabs
namespace DoublyLinked

variable {α : Type}

abbrev Addr := ℕ

structure Node (α : Type) where
  val : α
  next : Option Addr
  prev : Option Addr

/-- The store, the two pointers, and a bound on the addresses that were ever allocated. -/
structure Chain (α : Type) where
  nodes : Addr → Option (Node α)
  head : Option Addr
  tail : Option Addr
  bound : Addr

def empty (α : Type) : Chain α where
  nodes := fun _ => none
  head := none
  tail := none
  bound := 0

/-- A new node at the address `a`, which is not linked yet. -/
def alloc (a : Addr) (x : α) (q : Chain α) : Chain α :=
  { q with nodes := Function.update q.nodes a (some ⟨x,none,none⟩), bound := max q.bound (a+1) }

def free (a : Addr) (q : Chain α) : Chain α := { q with nodes := Function.update q.nodes a none }

def setNext (a : Addr) (p : Option Addr) (q : Chain α) : Option (Chain α) := do
  let c ← q.nodes a
  return { q with nodes := Function.update q.nodes a (some { c with next := p }) }

def setPrev (a : Addr) (p : Option Addr) (q : Chain α) : Option (Chain α) := do
  let c ← q.nodes a
  return { q with nodes := Function.update q.nodes a (some { c with prev := p }) }

/-- A new first node at the address `a`. -/
def pushFront (a : Addr) (x : α) (q : Chain α) : Option (Chain α) :=
  let q := alloc a x q
  match q.head with
  | none => some { q with head := some a, tail := some a }
  | some h => do
    let q ← setNext a (some h) q
    let q ← setPrev h (some a) q
    return { q with head := some a }

/-- A new last node at the address `a`. -/
def pushBack (a : Addr) (x : α) (q : Chain α) : Option (Chain α) :=
  let q := alloc a x q
  match q.tail with
  | none => some { q with head := some a, tail := some a }
  | some t => do
    let q ← setNext t (some a) q
    let q ← setPrev a (some t) q
    return { q with tail := some a }

/-- Take the node at the head out of the list and free it. -/
def removeHead (h : Addr) (q : Chain α) : Option (α × Chain α) := do
  let c ← q.nodes h
  if c.prev = none ∧ c.next = none then
    return (c.val,free h { q with head := none, tail := none })
  else
    let n ← c.next
    let q ← setPrev n none { q with head := c.next }
    return (c.val,free h q)

/-- Take the node at the tail out of the list and free it. -/
def removeTail (t : Addr) (q : Chain α) : Option (α × Chain α) := do
  let c ← q.nodes t
  if c.prev = none ∧ c.next = none then
    return (c.val,free t { q with head := none, tail := none })
  else
    let p ← c.prev
    let q ← setNext p none { q with tail := c.prev }
    return (c.val,free t q)

/-- Take a node between two others out of the list and free it. -/
def unlink (a : Addr) (q : Chain α) : Option (α × Chain α) := do
  let c ← q.nodes a
  let p ← c.prev
  let q ← setNext p c.next q
  let d ← q.nodes a
  let n ← d.next
  let q ← setPrev n d.prev q
  return (c.val,free a q)

def popFront (q : Chain α) : Option (Option α × Chain α) :=
  match q.head with
  | none => some (none,q)
  | some h => (removeHead h q).map fun r => (some r.1,r.2)

/-- Unlink the first node with a property, from a pointer on. -/
def removeMiddle (p : α → Bool) (q : Chain α) : ℕ → Option Addr → Option (Option α × Chain α)
  | _, none => some (none,q)
  | 0, some _ => none
  | n+1, some a => do
    let c ← q.nodes a
    if p c.val then (unlink a q).map fun r => (some r.1,r.2)
    else removeMiddle p q n c.next

/-- Remove a node with a property: the head and the tail are tried before the others. -/
def removeFirst (p : α → Bool) (q : Chain α) : Option (Option α × Chain α) :=
  match q.head with
  | none => some (none,q)
  | some h => do
    let c ← q.nodes h
    if p c.val then (removeHead h q).map fun r => (some r.1,r.2)
    else
      let t ← q.tail
      let d ← q.nodes t
      if p d.val then (removeTail t q).map fun r => (some r.1,r.2)
      else removeMiddle p q q.bound (some h)

/-- The nodes on the way along `next`, to its end at NULL. -/
def walkNext (q : Chain α) : ℕ → Option Addr → Option (List (Addr × α))
  | _, none => some []
  | 0, some _ => none
  | n+1, some a => do
    let c ← q.nodes a
    let l ← walkNext q n c.next
    return (a,c.val)::l

/-- The nodes on the way along `prev`, to its end at NULL. -/
def walkPrev (q : Chain α) : ℕ → Option Addr → Option (List (Addr × α))
  | _, none => some []
  | 0, some _ => none
  | n+1, some a => do
    let c ← q.nodes a
    let l ← walkPrev q n c.prev
    return (a,c.val)::l

def forwards (q : Chain α) : Option (List (Addr × α)) := walkNext q q.bound q.head
def backwards (q : Chain α) : Option (List (Addr × α)) := walkPrev q q.bound q.tail

/-! ## Segments -/

abbrev addrs (l : List (Addr × α)) : List Addr := l.map Prod.fst
abbrev vals (l : List (Addr × α)) : List α := l.map Prod.snd

/-- The nodes `l` lie one after the other from the pointer `p` on, behind the node `b`; the
pointer behind them is `n` and the last of them is `e`. -/
def Seg (nodes : Addr → Option (Node α)) : Option Addr → Option Addr → List (Addr × α) →
    Option Addr → Option Addr → Prop
  | b, p, [], n, e => p = n ∧ b = e
  | b, p, (a,x)::l, n, e => p = some a ∧ ∃ k, nodes a = some ⟨x,k,b⟩ ∧ Seg nodes (some a) k l n e

structure Linked (q : Chain α) (l : List (Addr × α)) : Prop where
  seg : Seg q.nodes none q.head l none q.tail
  nodup : (addrs l).Nodup
  bound : ∀ a, q.bound ≤ a → q.nodes a = none

/-- Only the node at `a` may differ. -/
structure Edited (a : Addr) (q q' : Chain α) : Prop where
  nodes : ∀ c, c ≠ a → q'.nodes c = q.nodes c
  head : q'.head = q.head
  tail : q'.tail = q.tail
  bound : q'.bound = q.bound

section Segments

variable {nodes nodes' : Addr → Option (Node α)} {b p n e : Option Addr} {l m : List (Addr × α)}
  {a : Addr} {x : α}

theorem seg_append : Seg nodes b p (l ++ m) n e ↔ ∃ k f, Seg nodes b p l k f ∧ Seg nodes f k m n e := by
  induction l generalizing b p with
  | nil => simp [Seg]
  | cons c l ih =>
    obtain ⟨a,x⟩ := c
    simp only [List.cons_append,Seg,ih]
    constructor
    · rintro ⟨rfl,k,hc,j,f,hl,hm⟩
      exact ⟨j,f,⟨rfl,k,hc,hl⟩,hm⟩
    · rintro ⟨j,f,⟨rfl,k,hc,hl⟩,hm⟩
      exact ⟨rfl,k,hc,j,f,hl,hm⟩

/-- A segment depends on its own nodes only. -/
theorem Seg.congr (h : Seg nodes b p l n e) (hn : ∀ c ∈ addrs l, nodes' c = nodes c) :
    Seg nodes' b p l n e := by
  induction l generalizing b p with
  | nil => exact h
  | cons c l ih =>
    obtain ⟨a,x⟩ := c
    obtain ⟨rfl,k,hc,hl⟩ := h
    refine ⟨rfl,k,?_,ih hl fun c hm => hn c (List.mem_cons_of_mem _ hm)⟩
    rw [hn a List.mem_cons_self,hc]

/-- A segment does not depend on a node outside of it. -/
theorem Seg.outside (h : Seg nodes b p l n e) (ha : a ∉ addrs l)
    (hn : ∀ c, c ≠ a → nodes' c = nodes c) : Seg nodes' b p l n e := by
  refine h.congr fun c hc => hn c ?_
  rintro rfl
  exact ha hc

theorem Seg.start (h : Seg nodes b p l none e) : p = (addrs l).head? := by
  cases l with
  | nil => exact h.1
  | cons c l => exact h.1

theorem Seg.last (h : Seg nodes b p l n e) (hl : l ≠ []) : e = (addrs l).getLast? := by
  obtain ⟨l,c,rfl⟩ := List.eq_nil_or_concat' l |>.resolve_left hl
  obtain ⟨k,f,-,hc⟩ := seg_append.mp h
  obtain ⟨-,-,-,-,rfl⟩ := hc
  simp

theorem Seg.node (h : Seg nodes b p l n e) (ha : a ∈ addrs l) : nodes a ≠ none := by
  induction l generalizing b p with
  | nil => cases ha
  | cons c l ih =>
    obtain ⟨c,x⟩ := c
    obtain ⟨rfl,k,hc,hl⟩ := h
    rcases List.mem_cons.mp ha with rfl | ha
    · rw [hc]
      simp
    · exact ih hl ha

theorem notMem_of_nodup (h : (addrs (l ++ (a,x)::m)).Nodup) : a ∉ addrs l ∧ a ∉ addrs m := by
  rw [addrs,List.map_append,List.map_cons,List.nodup_append] at h
  obtain ⟨-,hm,hl⟩ := h
  exact ⟨fun ha => hl a ha a List.mem_cons_self rfl,(List.nodup_cons.mp hm).1⟩

variable {q : Chain α} {c : Node α}

theorem setNext_eq (h : q.nodes a = some c) (p : Option Addr) : setNext a p q =
    some { q with nodes := Function.update q.nodes a (some { c with next := p }) } := by
  simp [setNext,h]

theorem setPrev_eq (h : q.nodes a = some c) (p : Option Addr) : setPrev a p q =
    some { q with nodes := Function.update q.nodes a (some { c with prev := p }) } := by
  simp [setPrev,h]

/-- The last node of a segment gets another pointer to what is behind it. -/
theorem Seg.setNext (h : Seg q.nodes b p (l ++ [(a,x)]) n e) (ha : a ∉ addrs l) (n' : Option Addr) :
    ∃ q', setNext a n' q = some q' ∧ Seg q'.nodes b p (l ++ [(a,x)]) n' e ∧ Edited a q q' := by
  obtain ⟨k,f,hl,hk,j,hc,-,he⟩ := seg_append.mp h
  refine ⟨_,setNext_eq hc n',?_,fun c hca => Function.update_of_ne hca ..,rfl,rfl,rfl⟩
  exact seg_append.mpr ⟨k,f,hl.outside ha fun c hca => Function.update_of_ne hca ..,hk,n',
    Function.update_self ..,rfl,he⟩

/-- The first node of a segment gets another pointer to what is before it. -/
theorem Seg.setPrev (h : Seg q.nodes b p ((a,x)::l) n e) (ha : a ∉ addrs l) (b' : Option Addr) :
    ∃ q', setPrev a b' q = some q' ∧ Seg q'.nodes b' p ((a,x)::l) n e ∧ Edited a q q' := by
  obtain ⟨hp,k,hc,hl⟩ := h
  refine ⟨_,setPrev_eq hc b',?_,fun c hca => Function.update_of_ne hca ..,rfl,rfl,rfl⟩
  exact ⟨hp,k,Function.update_self ..,hl.outside ha fun c hca => Function.update_of_ne hca ..⟩

end Segments

/-! ## The operations -/

section Operations

variable {q q' : Chain α} {l m : List (Addr × α)} {a : Addr} {x : α} {p : α → Bool}

theorem linked_empty : Linked (empty α) [] :=
  ⟨⟨rfl,rfl⟩,List.nodup_nil,fun _ _ => rfl⟩

theorem Linked.head_eq (h : Linked q l) : q.head = (addrs l).head? := h.seg.start

theorem Linked.tail_eq (h : Linked q l) : q.tail = (addrs l).getLast? := by
  by_cases hl : l = []
  · subst hl
    exact h.seg.2.symm
  · exact h.seg.last hl

theorem Linked.lt_bound (h : Linked q l) (ha : a ∈ addrs l) : a < q.bound := by
  by_contra hge
  exact h.seg.node ha (h.bound a (Nat.le_of_not_lt hge))

/-- There are at most as many nodes as addresses below the bound. -/
theorem Linked.length_le (h : Linked q l) : l.length ≤ q.bound := by
  have hsub : addrs l ⊆ List.range q.bound := fun a ha => List.mem_range.mpr (h.lt_bound ha)
  have hle := (h.nodup.subperm hsub).length_le
  rwa [List.length_map,List.length_range] at hle

theorem Linked.free (h : Linked q l) (ha : a ∉ addrs l) : Linked (free a q) l := by
  refine ⟨h.seg.outside ha fun c hca => Function.update_of_ne hca ..,h.nodup,fun b hb => ?_⟩
  by_cases hba : b = a
  · rw [hba]
    exact Function.update_self ..
  · exact (Function.update_of_ne hba ..).trans (h.bound b hb)

/-- An address that is not in use is not one of the list. -/
theorem Linked.notMem (h : Linked q l) (ha : q.nodes a = none) : a ∉ addrs l :=
  fun hm => h.seg.node hm ha

theorem Linked.alloc (h : Linked q l) (ha : q.nodes a = none) (x : α) : Linked (alloc a x q) l := by
  refine ⟨h.seg.outside (h.notMem ha) fun c hca => Function.update_of_ne hca ..,h.nodup,fun b hb => ?_⟩
  obtain ⟨hq,hab⟩ := max_le_iff.mp (show max q.bound (a+1) ≤ b from hb)
  exact (Function.update_of_ne (Nat.lt_of_succ_le hab).ne' ..).trans (h.bound b hq)

theorem alloc_lt_bound (a : Addr) (x : α) (q : Chain α) : a < (DoublyLinked.alloc a x q).bound :=
  lt_max_of_lt_right (Nat.lt_succ_self a)

/-- An edited node was allocated. -/
theorem Edited.bounded (h : Edited a q q') (ha : a < q.bound)
    (hq : ∀ c, q.bound ≤ c → q.nodes c = none) : ∀ c, q'.bound ≤ c → q'.nodes c = none := by
  intro c hc
  rw [h.bound] at hc
  exact (h.nodes c (ha.trans_le hc).ne').trans (hq c hc)

theorem Linked.pushFront (h : Linked q l) (ha : q.nodes a = none) (x : α) :
    ∃ q', pushFront a x q = some q' ∧ Linked q' ((a,x)::l) := by
  have hn := h.notMem ha
  have halloc := h.alloc ha x
  have hnew : (DoublyLinked.alloc a x q).nodes a = some ⟨x,none,none⟩ := Function.update_self ..
  have hhead : (DoublyLinked.alloc a x q).head = (addrs l).head? := h.head_eq
  have hnodup : (addrs ((a,x)::l)).Nodup := List.nodup_cons.mpr ⟨hn,h.nodup⟩
  cases l with
  | nil =>
    refine ⟨{ DoublyLinked.alloc a x q with head := some a, tail := some a },?_,
      ⟨⟨rfl,none,hnew,rfl,rfl⟩,hnodup,halloc.bound⟩⟩
    rw [DoublyLinked.pushFront,hhead]
    rfl
  | cons c l =>
    obtain ⟨b,y⟩ := c
    have hbl := (List.nodup_cons.mp h.nodup).1
    have hfirst : Seg (DoublyLinked.alloc a x q).nodes none (some a) ([] ++ [(a,x)]) none (some a) :=
      ⟨rfl,none,hnew,rfl,rfl⟩
    obtain ⟨q₁,h₁,hfirst,hed₁⟩ := hfirst.setNext (by simp) (some b)
    obtain ⟨q₂,h₂,hrest,hed₂⟩ := (halloc.seg.outside hn hed₁.nodes).setPrev hbl (some a)
    have hab : b ∉ addrs [(a,x)] := fun hm => hn (by simp_all)
    refine ⟨{ q₂ with head := some a },?_,⟨?_,hnodup,?_⟩⟩
    · rw [DoublyLinked.pushFront,hhead]
      simp [h₁,h₂]
    · refine seg_append.mpr ⟨some b,some a,hfirst.outside hab hed₂.nodes,?_⟩
      rw [hhead] at hrest
      rw [hed₂.tail.trans hed₁.tail]
      exact hrest
    · refine hed₂.bounded ?_ (hed₁.bounded (alloc_lt_bound a x q) halloc.bound)
      exact hed₁.bound.symm ▸ halloc.lt_bound List.mem_cons_self

theorem Linked.pushBack (h : Linked q l) (ha : q.nodes a = none) (x : α) :
    ∃ q', pushBack a x q = some q' ∧ Linked q' (l ++ [(a,x)]) := by
  have hn := h.notMem ha
  have halloc := h.alloc ha x
  have hnew : (DoublyLinked.alloc a x q).nodes a = some ⟨x,none,none⟩ := Function.update_self ..
  have htail : (DoublyLinked.alloc a x q).tail = (addrs l).getLast? := h.tail_eq
  have hnodup : (addrs (l ++ [(a,x)])).Nodup := by
    rw [addrs,List.map_append]
    exact h.nodup.append (List.nodup_singleton _) (by simpa using hn)
  rcases List.eq_nil_or_concat' l with rfl | ⟨l,⟨t,y⟩,rfl⟩
  · refine ⟨{ DoublyLinked.alloc a x q with head := some a, tail := some a },?_,
      ⟨⟨rfl,none,hnew,rfl,rfl⟩,hnodup,halloc.bound⟩⟩
    rw [DoublyLinked.pushBack,htail]
    rfl
  · have htl := (notMem_of_nodup h.nodup).1
    have hlast : (DoublyLinked.alloc a x q).tail = some t := by simpa using htail
    obtain ⟨q₁,h₁,hrest,hed₁⟩ := halloc.seg.setNext htl (some a)
    have hta : a ∉ addrs [(t,y)] := fun hm => hn (by simp_all)
    have hat : a ≠ t := by simpa using hta
    have hnode : Seg q₁.nodes none (some a) [(a,x)] none (some a) :=
      ⟨rfl,none,(hed₁.nodes a hat).trans hnew,rfl,rfl⟩
    obtain ⟨q₂,h₂,hnode,hed₂⟩ := hnode.setPrev (by simp) (some t)
    refine ⟨{ q₂ with tail := some a },?_,⟨?_,hnodup,?_⟩⟩
    · rw [DoublyLinked.pushBack,hlast]
      simp [h₁,h₂]
    · have hseg := hrest.outside hn hed₂.nodes
      rw [hlast] at hseg
      rw [hed₂.head.trans hed₁.head]
      exact seg_append.mpr ⟨some a,some t,hseg,hnode⟩
    · have hlt : t < (DoublyLinked.alloc a x q).bound := halloc.lt_bound (by simp)
      refine hed₂.bounded ?_ (hed₁.bounded hlt halloc.bound)
      exact hed₁.bound.symm ▸ alloc_lt_bound a x q

theorem Linked.removeHead (h : Linked q ((a,x)::l)) :
    ∃ q', removeHead a q = some (x,q') ∧ Linked q' l := by
  obtain ⟨hal,hnodup⟩ := List.nodup_cons.mp h.nodup
  have hlt := h.lt_bound (a := a) List.mem_cons_self
  obtain ⟨-,k,hc,hl⟩ := h.seg
  cases l with
  | nil =>
    obtain ⟨rfl,-⟩ := hl
    have hq : Linked { q with head := none, tail := none } ([] : List (Addr × α)) :=
      ⟨⟨rfl,rfl⟩,List.nodup_nil,h.bound⟩
    exact ⟨_,by simp [DoublyLinked.removeHead,hc],hq.free (a := a) (by simp)⟩
  | cons c l =>
    obtain ⟨b,y⟩ := c
    obtain rfl : k = some b := hl.1
    have hbl := (List.nodup_cons.mp hnodup).1
    obtain ⟨q₁,h₁,hseg,hed⟩ := Seg.setPrev (q := { q with head := some b }) hl hbl none
    have hb : b < q.bound := h.lt_bound (by simp)
    have hq : Linked q₁ ((b,y)::l) :=
      ⟨by rw [hed.head,hed.tail]; exact hseg,hnodup,hed.bounded hb h.bound⟩
    exact ⟨_,by simp [DoublyLinked.removeHead,hc,h₁],hq.free hal⟩

theorem Linked.removeTail (h : Linked q (l ++ [(a,x)])) :
    ∃ q', removeTail a q = some (x,q') ∧ Linked q' l := by
  have hal := (notMem_of_nodup h.nodup).1
  obtain ⟨j,f,hl,-,k,hc,rfl,-⟩ := seg_append.mp h.seg
  rcases List.eq_nil_or_concat' l with rfl | ⟨l,⟨b,y⟩,rfl⟩
  · obtain ⟨-,rfl⟩ := hl
    have hq : Linked { q with head := none, tail := none } ([] : List (Addr × α)) :=
      ⟨⟨rfl,rfl⟩,List.nodup_nil,h.bound⟩
    exact ⟨_,by simp [DoublyLinked.removeTail,hc],hq.free (a := a) (by simp)⟩
  · have hf : f = some b := by simpa using hl.last (by simp)
    have hnodup : (addrs (l ++ [(b,y)])).Nodup := by
      have hall := h.nodup
      rw [addrs,List.map_append] at hall
      exact hall.of_append_left
    obtain ⟨q₁,h₁,hseg,hed⟩ := Seg.setNext (q := { q with tail := f }) hl
      (notMem_of_nodup hnodup).1 none
    have hb : b < q.bound := h.lt_bound (by simp)
    have hq : Linked q₁ (l ++ [(b,y)]) :=
      ⟨by rw [hed.head,hed.tail]; exact hseg,hnodup,hed.bounded hb h.bound⟩
    rw [hf] at hc h₁
    exact ⟨_,by simp [DoublyLinked.removeTail,hc,h₁],hq.free hal⟩

theorem Linked.unlink {b n : Addr} {y z : α} (h : Linked q (l ++ (b,y)::(a,x)::(n,z)::m)) :
    ∃ q', unlink a q = some (x,q') ∧ Linked q' (l ++ (b,y)::(n,z)::m) := by
  have hb : b < q.bound := h.lt_bound (by simp)
  have hn : n < q.bound := h.lt_bound (by simp)
  have hl' : (addrs ((l ++ [(b,y)]) ++ (a,x)::(n,z)::m)).Nodup := by simpa using h.nodup
  obtain ⟨hal,ham⟩ := notMem_of_nodup hl'
  have hnodup : (addrs ((l ++ [(b,y)]) ++ (n,z)::m)).Nodup := by
    refine hl'.sublist (List.Sublist.map _ ?_)
    exact (List.sublist_cons_self _ _).append_left _
  obtain ⟨hnl,hnm⟩ := notMem_of_nodup hnodup
  have hbl := (notMem_of_nodup h.nodup).1
  have hseg := h.seg
  rw [List.append_cons] at hseg
  obtain ⟨k,f,hleft,rfl,j,hc,hright⟩ := seg_append.mp hseg
  obtain rfl : f = some b := by simpa using hleft.last (by simp)
  obtain rfl : j = some n := hright.1
  obtain ⟨q₁,h₁,hleft,hed₁⟩ := hleft.setNext hbl (some n)
  have hab : a ≠ b := by rintro rfl; simp at hal
  have hbr : b ∉ addrs ((n,z)::m) := by
    intro hm
    rw [addrs,List.map_append,List.nodup_append] at hnodup
    exact hnodup.2.2 b (by simp) b hm rfl
  have hc₁ : q₁.nodes a = some ⟨x,some n,some b⟩ := (hed₁.nodes a hab).trans hc
  obtain ⟨q₂,h₂,hright,hed₂⟩ := (hright.outside hbr hed₁.nodes).setPrev hnm (some b)
  have hq : Linked q₂ (l ++ [(b,y)] ++ (n,z)::m) := by
    refine ⟨?_,hnodup,?_⟩
    · rw [hed₂.head.trans hed₁.head,hed₂.tail.trans hed₁.tail]
      exact seg_append.mpr ⟨_,_,hleft.outside hnl hed₂.nodes,hright⟩
    · exact hed₂.bounded (hed₁.bound.symm ▸ hn) (hed₁.bounded hb h.bound)
  have hfree := hq.free (a := a) fun hm => by
    rw [addrs,List.map_append] at hm
    exact (List.mem_append.mp hm).elim hal ham
  rw [← List.append_cons] at hfree
  exact ⟨_,by simp [DoublyLinked.unlink,hc,h₁,hc₁,h₂],hfree⟩

theorem Linked.popFront (h : Linked q l) :
    ∃ q', popFront q = some ((vals l).head?,q') ∧ Linked q' l.tail := by
  have hhead := h.head_eq
  cases l with
  | nil => exact ⟨q,by simp [DoublyLinked.popFront,hhead],h⟩
  | cons c l =>
    obtain ⟨q',hq',hl⟩ := h.removeHead
    exact ⟨q',by simp [DoublyLinked.popFront,hhead,hq'],hl⟩

theorem Linked.node_eq (h : Linked q (l ++ (a,x)::m)) :
    ∃ b, q.nodes a = some ⟨x,(addrs m).head?,b⟩ := by
  obtain ⟨k,f,-,-,j,hc,hm⟩ := seg_append.mp h.seg
  exact ⟨f,by rw [hc,hm.start]⟩

/-- The loop finds what lies between the head and the tail. -/
theorem Linked.removeMiddle {n : ℕ} (h : Linked q (l ++ m)) (hn : m.length ≤ n)
    (hfirst : l = [] → ∀ c ∈ m.head?, p c.2 = false) (hlast : ∀ c ∈ m.getLast?, p c.2 = false) :
    ∃ q', removeMiddle p q n (addrs m).head? = some ((vals m).find? p,q') ∧
      Linked q' (l ++ m.eraseP (p ∘ Prod.snd)) := by
  induction m generalizing l n with
  | nil => exact ⟨q,by cases n <;> rfl,h⟩
  | cons c m ih =>
    obtain ⟨a,x⟩ := c
    obtain ⟨n,rfl⟩ : ∃ k, n = k+1 := ⟨n-1,by simp at hn; omega⟩
    obtain ⟨b,hc⟩ := h.node_eq
    by_cases hx : p x = true
    · rcases List.eq_nil_or_concat' l with rfl | ⟨l,⟨b,y⟩,rfl⟩
      · exact absurd (hfirst rfl (a,x) rfl) (by simp [hx])
      cases m with
      | nil => exact absurd (hlast (a,x) rfl) (by simp [hx])
      | cons d m =>
        obtain ⟨d,z⟩ := d
        rw [← List.append_cons] at h
        obtain ⟨q',hq',hl⟩ := h.unlink
        refine ⟨q',by simp [DoublyLinked.removeMiddle,hc,hx,hq'],?_⟩
        rw [List.eraseP_cons_of_pos (by simpa using hx),← List.append_cons]
        exact hl
    · rw [List.append_cons] at h
      obtain ⟨q',hq',hl⟩ := ih h (by simpa using hn) (by simp) fun c hm => hlast c (by
        rw [List.getLast?_cons,Option.mem_def.mp hm]
        rfl)
      refine ⟨q',?_,?_⟩
      · simpa [DoublyLinked.removeMiddle,hc,hx] using hq'
      · rw [List.eraseP_cons_of_neg (by simpa using hx),List.append_cons]
        exact hl

/-- The property holds of one element at most. -/
def AtMostOne (p : α → Bool) (xs : List α) : Prop :=
  xs.Pairwise fun x y => ¬(p x = true ∧ p y = true)

theorem Linked.removeFirst (h : Linked q l) (hp : AtMostOne p (vals l)) :
    ∃ q', removeFirst p q = some ((vals l).find? p,q') ∧ Linked q' (l.eraseP (p ∘ Prod.snd)) := by
  have hhead := h.head_eq
  have htail := h.tail_eq
  cases l with
  | nil => exact ⟨q,by simp [DoublyLinked.removeFirst,hhead],h⟩
  | cons c l =>
    obtain ⟨a,x⟩ := c
    obtain ⟨b,hc⟩ := Linked.node_eq (l := []) h
    by_cases hx : p x = true
    · obtain ⟨q',hq',hl⟩ := h.removeHead
      refine ⟨q',by simp [DoublyLinked.removeFirst,hhead,hc,hx,hq'],?_⟩
      rwa [List.eraseP_cons_of_pos (by simpa using hx)]
    · obtain ⟨m,⟨t,y⟩,hm⟩ := List.eq_nil_or_concat' ((a,x)::l) |>.resolve_left (by simp)
      have hlast : q.tail = some t := by simpa [hm] using htail
      rw [hm] at h hp ⊢
      obtain ⟨e,hd⟩ := h.node_eq
      by_cases hy : p y = true
      · obtain ⟨q',hq',hl⟩ := h.removeTail
        have hnone : ∀ c ∈ m, ¬p c.2 = true := by
          intro c hcm hpc
          have hp' := hp
          rw [AtMostOne,vals,List.map_append,List.pairwise_append] at hp'
          exact hp'.2.2 c.2 (List.mem_map_of_mem hcm) y (by simp) ⟨hpc,hy⟩
        refine ⟨q',?_,?_⟩
        · have hfind : (vals m).find? p = none := by simpa [List.find?_eq_none] using hnone
          simp [DoublyLinked.removeFirst,hhead,hc,hx,hlast,hd,hy,hq',List.find?_append,hfind]
        · rw [List.eraseP_append_right _ (by simpa using hnone),
            List.eraseP_cons_of_pos (by simpa using hy)]
          simpa using hl
      · have hfirst : ∀ c ∈ (m ++ [(t,y)]).head?, p c.2 = false := by
          rw [← hm]
          rintro c hcm
          obtain rfl := Option.some.inj hcm
          simpa using hx
        have hlast' : ∀ c ∈ (m ++ [(t,y)]).getLast?, p c.2 = false := by
          rw [List.getLast?_concat]
          rintro c hcm
          obtain rfl := Option.some.inj hcm
          simpa using hy
        obtain ⟨q',hq',hl⟩ := Linked.removeMiddle (l := []) (m := m ++ [(t,y)]) h h.length_le
          (fun _ => hfirst) hlast'
        refine ⟨q',?_,hl⟩
        have hstart : (addrs (m ++ [(t,y)])).head? = some a := by rw [← hm]; rfl
        rw [hstart] at hq'
        simp [DoublyLinked.removeFirst,hhead,hc,hx,hlast,hd,hy,hq']

/-! ### The walks in both directions -/

theorem walkNext_eq {b s e : Option Addr} {n : ℕ} (h : Seg q.nodes b s l none e)
    (hn : l.length ≤ n) : walkNext q n s = some l := by
  induction l generalizing b s n with
  | nil =>
    obtain rfl := h.1
    cases n <;> rfl
  | cons c l ih =>
    obtain ⟨a,x⟩ := c
    obtain ⟨n,rfl⟩ : ∃ k, n = k+1 := ⟨n-1,by simp at hn; omega⟩
    obtain ⟨rfl,k,hc,hl⟩ := h
    simp [walkNext,hc,ih hl (by simpa using hn)]

theorem walkPrev_eq {s k e : Option Addr} {n : ℕ} (h : Seg q.nodes none s l k e)
    (hn : l.length ≤ n) : walkPrev q n e = some l.reverse := by
  induction l using List.reverseRecOn generalizing k e n with
  | nil =>
    obtain rfl := h.2
    cases n <;> rfl
  | append_singleton l c ih =>
    obtain ⟨a,x⟩ := c
    obtain ⟨n,rfl⟩ : ∃ k, n = k+1 := ⟨n-1,by simp at hn; omega⟩
    obtain ⟨i,f,hl,-,j,hc,-,rfl⟩ := seg_append.mp h
    simp [walkPrev,hc,ih hl (by simpa using hn)]

theorem Linked.forwards (h : Linked q l) : forwards q = some l := walkNext_eq h.seg h.length_le

theorem Linked.backwards (h : Linked q l) : backwards q = some l.reverse :=
  walkPrev_eq h.seg h.length_le

theorem Linked.head_eq_none (h : Linked q l) : q.head = none ↔ q.tail = none := by
  rw [h.head_eq,h.tail_eq]
  cases l <;> simp

end Operations

/-! ## Sequences -/

/-- The list in memory is the sequence: its two pointers are NULL together, and the ways along
`next` and along `prev` visit the same nodes in opposite orders and end at NULL. -/
structure IsSequence (q : Chain α) (xs : List α) : Prop where
  ends : q.head = none ↔ q.tail = none
  walks : ∃ l, forwards q = some l ∧ backwards q = some l.reverse ∧ vals l = xs

/-- The values of the linked nodes. -/
def Holds (q : Chain α) (xs : List α) : Prop := ∃ l, Linked q l ∧ vals l = xs

section Holds

variable {q : Chain α} {xs : List α} {a : Addr} {p : α → Bool}

theorem Holds.isSequence (h : Holds q xs) : IsSequence q xs := by
  obtain ⟨l,hl,rfl⟩ := h
  exact ⟨hl.head_eq_none,l,hl.forwards,hl.backwards,rfl⟩

theorem Holds.pushFront (h : Holds q xs) (ha : q.nodes a = none) (x : α) :
    ∃ q', pushFront a x q = some q' ∧ Holds q' (x::xs) := by
  obtain ⟨l,hl,rfl⟩ := h
  obtain ⟨q',hq',hl'⟩ := hl.pushFront ha x
  exact ⟨q',hq',_,hl',rfl⟩

theorem Holds.pushBack (h : Holds q xs) (ha : q.nodes a = none) (x : α) :
    ∃ q', pushBack a x q = some q' ∧ Holds q' (xs ++ [x]) := by
  obtain ⟨l,hl,rfl⟩ := h
  obtain ⟨q',hq',hl'⟩ := hl.pushBack ha x
  exact ⟨q',hq',_,hl',List.map_append⟩

theorem Holds.popFront (h : Holds q xs) : ∃ q', popFront q = some (xs.head?,q') ∧ Holds q' xs.tail := by
  obtain ⟨l,hl,rfl⟩ := h
  obtain ⟨q',hq',hl'⟩ := hl.popFront
  exact ⟨q',hq',_,hl',List.map_tail⟩

theorem Holds.removeFirst (h : Holds q xs) (hp : AtMostOne p xs) :
    ∃ q', removeFirst p q = some (xs.find? p,q') ∧ Holds q' (xs.eraseP p) := by
  obtain ⟨l,hl,rfl⟩ := h
  obtain ⟨q',hq',hl'⟩ := hl.removeFirst hp
  exact ⟨q',hq',_,hl',(List.eraseP_map ..).symm⟩

end Holds

section Runs

open Transition

variable {Op R : Type}

/-- An operation on a list in memory, and on the sequence that it should be. -/
def runStep (run : Op → Chain α → Option (R × Chain α)) (onList : Op → List α → R × List α)
    (s : Chain α × List α) (op : Op) : Option (Chain α × List α) :=
  (run op s.1).map fun r => (r.2,(onList op s.2).2)

/-- The operations that are allowed are the ones on sequences, and keep the property `I`. -/
structure Simulates (run : Op → Chain α → Option (R × Chain α)) (onList : Op → List α → R × List α)
    (ok : Chain α × List α → Op → Prop) (I : List α → Prop) : Prop where
  init : I []
  step : ∀ q xs op, Holds q xs → I xs → ok (q,xs) op → I (onList op xs).2 ∧
    ∃ q', run op q = some ((onList op xs).1,q') ∧ Holds q' (onList op xs).2

variable {run : Op → Chain α → Option (R × Chain α)} {onList : Op → List α → R × List α}
  {ok : Chain α × List α → Op → Prop} {I : List α → Prop} {s : Chain α × List α}

theorem Simulates.holds (h : Simulates run onList ok I)
    (hr : Reachable (empty α,[]) (runStep run onList) ok s) : I s.2 ∧ Holds s.1 s.2 := by
  refine hr.invariant (P := fun s => I s.2 ∧ Holds s.1 s.2) ⟨h.init,[],linked_empty,rfl⟩ ?_
  rintro ⟨q,xs⟩ op s' ⟨hI,hq⟩ hop hst
  obtain ⟨hI',q',hrun,hq'⟩ := h.step q xs op hq hI hop
  obtain rfl : (q',(onList op xs).2) = s' := by simpa [runStep,hrun] using hst
  exact ⟨hI',hq'⟩

/-- In every run the list in memory is the sequence, and the next operation succeeds with the
result of the operation on sequences. -/
theorem Simulates.isSequence (h : Simulates run onList ok I)
    (hr : Reachable (empty α,[]) (runStep run onList) ok s) :
    IsSequence s.1 s.2 ∧ ∀ op, ok s op → ∃ q', run op s.1 = some ((onList op s.2).1,q') := by
  obtain ⟨q,xs⟩ := s
  obtain ⟨hI,hq⟩ := h.holds hr
  refine ⟨hq.isSequence,fun op hop => ?_⟩
  obtain ⟨-,q',hrun,-⟩ := h.step q xs op hq hI hop
  exact ⟨q',hrun⟩

end Runs

end DoublyLinked
end OsLabs

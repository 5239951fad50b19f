import OsLabs.LinkedQueue
import OsLabs.ListSequences

/-!
# The wait queues of the thread package

A `struct wait_queue` of `threads/thread.c` in memory: a first cell that carries no thread, named by
the pointer to the queue, and behind it one cell for each waiting thread. There is no pointer to the
last cell; the function that adds a thread walks to it. `thread_wakeup` moves threads from here to the
ready queue, which has nodes of its own. On queues of thread identifiers the functions are the ones of
the scheduler's model on lists.
-/

namespace OsLabs
namespace WaitLists

open LinkedQueue
open ThreadModel (Tid State WaitQueue)
open ListSequences (ReadyQueue)

/-- The cells, and an address that all of them are below. -/
structure Waits where
  cells : Addr → Option (Cell Tid)
  bound : ℕ

/-- A new cell that is not linked yet. -/
def alloc (newElem : Addr) (tid : Tid) (m : Waits) : Waits where
  cells := Function.update m.cells newElem (some ⟨tid,none⟩)
  bound := max m.bound (newElem+1)

def setNext (a : Addr) (next : Option Addr) (m : Waits) : Option Waits := do
  let c ← m.cells a
  return { m with cells := Function.update m.cells a (some { c with next := next }) }

/-- The loop that walks to the last cell. -/
def lastFrom (m : Waits) : ℕ → Addr → Option Addr
  | 0, _ => none
  | n+1, curr => do
    let c ← m.cells curr
    match c.next with
    | none => return curr
    | some next => lastFrom m n next

/-- The second argument is what `malloc` returns. -/
def pushThreadToWait (queue newElem : Addr) (tid : Tid) (m : Waits) : Option Waits := do
  let q ← m.cells queue
  let m := alloc newElem tid m
  match q.next with
  | none => setNext queue (some newElem) m
  | some head => do
    let curr ← lastFrom m m.bound head
    setNext curr (some newElem) m

def popHeadThreadWait (queue : Addr) (m : Waits) : Option (Tid × Waits) := do
  let q ← m.cells queue
  match q.next with
  | none => return (-1,m)
  | some head => do
    let c ← m.cells head
    let m ← setNext queue c.next m
    return (c.val,{ m with cells := Function.update m.cells head none })

section Wakeup

-- what `malloc` returns for a new element of the ready queue
variable (malloc : ReadyQueue → Addr)

/-- The loop for `all == 1`, with the identifier that was removed last. -/
def wakeupLoop (queue : Addr) : ℕ → Tid → ℤ → Waits × ReadyQueue → Option (ℤ × Waits × ReadyQueue)
  | 0, _, _, _ => none
  | n+1, tidPopped, wokeUp, (m,ready) =>
    if tidPopped = -1 then some (wokeUp,m,ready)
    else do
      let (tidPopped,m) ← popHeadThreadWait queue m
      if tidPopped = -1 then wakeupLoop queue n tidPopped wokeUp (m,ready)
      else do
        let ready ← ListSequences.addToTail (malloc ready) tidPopped ready
        wakeupLoop queue n tidPopped (wokeUp+1) (m,ready)

def threadWakeup (queue : Option Addr) (all : ℤ) (s : Waits × ReadyQueue) :
    Option (ℤ × Waits × ReadyQueue) :=
  match queue with
  | none => some (0,s)
  | some queue => do
    let q ← s.1.cells queue
    if q.next = none then return (0,s)
    else do
      let (tidPopped,m) ← popHeadThreadWait queue s.1
      let ready ← ListSequences.addToTail (malloc s.2) tidPopped s.2
      if all = 1 then wakeupLoop malloc queue (m.bound+1) tidPopped 1 (m,ready) else return (1,m,ready)

end Wakeup

/-! ### Queues in memory -/

/-- The cell of the queue itself and the ones of the waiting threads. -/
structure Linked (m : Waits) (queue : Addr) (l : List (Addr × Tid)) : Prop where
  seg : Seg m.cells (some queue) ((queue,-1)::l) none
  nodup : (addrs ((queue,-1)::l)).Nodup
  bounded : ∀ a, m.bound ≤ a → m.cells a = none

/-- The threads that wait in a queue, front first. -/
def Holds (m : Waits) (queue : Addr) (tids : List Tid) : Prop :=
  ∃ l, Linked m queue l ∧ l.map Prod.snd = tids

variable {m : Waits} {queue a : Addr} {l : List (Addr × Tid)} {tids : List Tid} {tid : Tid}

theorem Linked.head_cell (h : Linked m queue l) : m.cells queue = some ⟨-1,(addrs l).head?⟩ := by
  obtain ⟨-,n,hc,hl⟩ := h.seg
  rw [hc,hl.start]

theorem Linked.lt_bound (h : Linked m queue l) (ha : a ∈ addrs ((queue,-1)::l)) : a < m.bound := by
  by_contra hge
  exact h.seg.cell ha (h.bounded a (Nat.le_of_not_lt hge))

theorem Linked.length_lt (h : Linked m queue l) : l.length < m.bound := by
  have hsub : addrs ((queue,-1)::l) ⊆ List.range m.bound := fun a ha =>
    List.mem_range.mpr (h.lt_bound ha)
  have hle := (h.nodup.subperm hsub).length_le
  rwa [List.length_map,List.length_range] at hle

/-- Linking the last cell of a segment to another one. -/
theorem setNext_seg {p : Option Addr} {x : Tid} {r : Option Addr} (h : Seg m.cells p (l ++ [(a,x)]) r)
    (ha : a ∉ addrs l) (next : Option Addr) :
    setNext a next m = some { m with cells := Function.update m.cells a (some ⟨x,next⟩) } ∧
      Seg (Function.update m.cells a (some ⟨x,next⟩)) p (l ++ [(a,x)]) next := by
  obtain ⟨n,hl,rfl,k,hc,-⟩ := seg_append.mp h
  refine ⟨by simp [setNext,hc],seg_append.mpr ⟨some a,hl.update ha _,rfl,next,?_,rfl⟩⟩
  exact Function.update_self ..

/-- The walk from a cell ends at the last one. -/
theorem lastFrom_eq {b : Addr} {x : Tid} {n : ℕ} (h : Seg m.cells (some b) (l ++ [(a,x)]) none)
    (hn : l.length < n) : lastFrom m n b = some a := by
  induction l generalizing b n with
  | nil =>
    obtain ⟨hb,k,hc,rfl⟩ := h
    obtain rfl := Option.some.inj hb
    obtain ⟨n,rfl⟩ := Nat.exists_eq_add_one_of_ne_zero (Nat.pos_iff_ne_zero.mp hn)
    simp [lastFrom,hc]
  | cons c l ih =>
    obtain ⟨c,y⟩ := c
    obtain ⟨hb,k,hc,hl⟩ := h
    obtain rfl := Option.some.inj hb
    rw [List.length_cons] at hn
    obtain ⟨n,rfl⟩ := Nat.exists_eq_add_one_of_ne_zero (Nat.ne_zero_of_lt hn)
    obtain ⟨d,rfl⟩ : ∃ d, k = some d := by
      cases l with
      | nil => exact ⟨_,hl.1⟩
      | cons e l => exact ⟨_,hl.1⟩
    have hwalk := ih hl (Nat.lt_of_succ_lt_succ hn)
    simp [lastFrom,hc,hwalk]

/-- An empty queue is no special case: the walk may start at the cell of the queue itself. -/
theorem pushThreadToWait_eq (h : Linked m queue l) (ha : m.cells a = none) (tid : Tid) :
    pushThreadToWait queue a tid m = (lastFrom (alloc a tid m) ((alloc a tid m).bound+1) queue).bind
      fun curr => setNext curr (some a) (alloc a tid m) := by
  have hq : (alloc a tid m).cells queue = some ⟨-1,(addrs l).head?⟩ := by
    refine (Function.update_of_ne ?_ ..).trans h.head_cell
    rintro rfl
    simp [h.head_cell] at ha
  simp only [pushThreadToWait,h.head_cell,lastFrom,hq,Option.bind_eq_bind,Option.bind_some]
  cases (addrs l).head? with
  | none => rfl
  | some head => rfl

theorem Linked.push (h : Linked m queue l) (ha : m.cells a = none) (tid : Tid) :
    ∃ m', pushThreadToWait queue a tid m = some m' ∧ Linked m' queue (l ++ [(a,tid)]) := by
  have hn : a ∉ addrs ((queue,-1)::l) := fun hm => h.seg.cell hm ha
  have hseg : Seg (alloc a tid m).cells (some queue) ((queue,-1)::l) none := h.seg.update hn _
  have hlen : ((queue,-1)::l : List (Addr × Tid)).length ≤ (alloc a tid m).bound :=
    (Nat.succ_le_of_lt h.length_lt).trans (le_max_left _ _)
  obtain ⟨pre,⟨t,y⟩,hlast⟩ : ∃ pre c, ((queue,-1)::l : List (Addr × Tid)) = pre ++ [c] :=
    (List.eq_nil_or_concat' _).resolve_left (by simp)
  have hnodup := h.nodup
  have hlt : t < m.bound := h.lt_bound (by rw [hlast]; simp)
  rw [hlast] at hseg hnodup hn hlen
  have ht : t ∉ addrs pre := by
    rw [addrs_append] at hnodup
    exact fun hm => List.disjoint_of_nodup_append hnodup hm (by simp)
  have hat : a ≠ t := fun he => hn (by simp [he])
  obtain ⟨hset,hlinked⟩ := setNext_seg hseg ht (some a)
  have hwalk : lastFrom (alloc a tid m) ((alloc a tid m).bound+1) queue = some t := by
    refine lastFrom_eq hseg ?_
    rw [List.length_append,List.length_singleton] at hlen
    exact Nat.lt_succ_of_lt hlen
  refine ⟨_,by rw [pushThreadToWait_eq h ha,hwalk]; exact hset,?_,?_,fun b hb => ?_⟩
  · have hnew : Seg (alloc a tid m).cells (some a) [(a,tid)] none :=
      ⟨rfl,none,Function.update_self ..,rfl⟩
    rw [← List.cons_append,hlast]
    exact seg_append.mpr ⟨some a,hlinked,hnew.update (by simpa using hat.symm) _⟩
  · rw [← List.cons_append,hlast,addrs_append]
    exact hnodup.append (List.nodup_singleton _) (by simpa using hn)
  · have hbound : max m.bound (a+1) ≤ b := hb
    have hba : b ≠ a := (lt_of_lt_of_le (Nat.lt_succ_self a) ((le_max_right _ _).trans hbound)).ne'
    have hbm : m.bound ≤ b := (le_max_left _ _).trans hbound
    exact (Function.update_of_ne (lt_of_lt_of_le hlt hbm).ne' ..).trans
      ((Function.update_of_ne hba ..).trans (h.bounded b hbm))

theorem Linked.pop_nil (h : Linked m queue []) : popHeadThreadWait queue m = some (-1,m) := by
  have hq : m.cells queue = some ⟨-1,none⟩ := h.head_cell
  simp [popHeadThreadWait,hq]

theorem Linked.pop_cons (h : Linked m queue ((a,tid)::l)) :
    ∃ m', popHeadThreadWait queue m = some (tid,m') ∧ Linked m' queue l := by
  have hq : m.cells queue = some ⟨-1,some a⟩ := h.head_cell
  obtain ⟨-,k,-,-,n,hc,hl⟩ := h.seg
  obtain ⟨hqa,hnodup⟩ := List.nodup_cons.mp h.nodup
  obtain ⟨hal,hlnodup⟩ := List.nodup_cons.mp hnodup
  have hql : queue ∉ addrs l := fun hm => hqa (List.mem_cons_of_mem _ hm)
  have hne : queue ≠ a := fun he => hqa (by simp [he])
  refine ⟨{ m with
    cells := Function.update (Function.update m.cells queue (some ⟨-1,n⟩)) a none },
    by simp [popHeadThreadWait,hq,hc,setNext],⟨?_,?_,fun b hb => ?_⟩⟩
  · refine ⟨rfl,n,?_,(hl.update hql _).update hal _⟩
    exact (Function.update_of_ne hne ..).trans (Function.update_self ..)
  · exact List.nodup_cons.mpr ⟨hql,hlnodup⟩
  · have hbq : b ≠ queue := (lt_of_lt_of_le (h.lt_bound (by simp)) hb).ne'
    by_cases hba : b = a
    · rw [hba]
      exact Function.update_self ..
    · exact (Function.update_of_ne hba ..).trans
        ((Function.update_of_ne hbq ..).trans (h.bounded b hb))

/-! ### The functions on queues -/

theorem Holds.push (h : Holds m queue tids) (ha : m.cells a = none) (tid : Tid) :
    ∃ m', pushThreadToWait queue a tid m = some m' ∧ Holds m' queue (tids ++ [tid]) := by
  obtain ⟨l,hl,rfl⟩ := h
  obtain ⟨m',hm,hl'⟩ := hl.push ha tid
  exact ⟨m',hm,_,hl',List.map_append⟩

theorem Holds.pop (h : Holds m queue tids) :
    ∃ m', popHeadThreadWait queue m = some (tids.head?.getD (-1),m') ∧ Holds m' queue tids.tail := by
  obtain ⟨l,hl,rfl⟩ := h
  cases l with
  | nil => exact ⟨m,hl.pop_nil,_,hl,rfl⟩
  | cons c l =>
    obtain ⟨m',hm,hl'⟩ := hl.pop_cons
    exact ⟨m',hm,_,hl',rfl⟩

theorem Holds.length_lt (h : Holds m queue tids) : tids.length < m.bound := by
  obtain ⟨l,hl,rfl⟩ := h
  rw [List.length_map]
  exact hl.length_lt

theorem Holds.head_cell (h : Holds m queue tids) :
    ∃ next, m.cells queue = some ⟨-1,next⟩ ∧ (next = none ↔ tids = []) := by
  obtain ⟨l,hl,rfl⟩ := h
  exact ⟨_,hl.head_cell,by simp [List.head?_eq_none_iff]⟩

/-- The operations on the wait queues of the scheduler's model. -/
theorem waitQueue_refines {s : State} {q : WaitQueue} (h : Holds m queue (s.waitQueues q)) (tid : Tid) :
    (∀ newElem, m.cells newElem = none → ∃ m', pushThreadToWait queue newElem tid m = some m' ∧
      Holds m' queue ((ThreadModel.pushThreadToWait q tid s).waitQueues q)) ∧
    ∃ m', popHeadThreadWait queue m = some ((ThreadModel.popHeadThreadWait q s).1,m') ∧
      Holds m' queue ((ThreadModel.popHeadThreadWait q s).2.waitQueues q) := by
  constructor
  · intro newElem hn
    obtain ⟨m',hm,hh⟩ := h.push hn tid
    exact ⟨m',hm,by simpa [ThreadModel.pushThreadToWait,State.setQueue] using hh⟩
  · obtain ⟨m',hm,hh⟩ := h.pop
    refine ⟨m',?_,?_⟩
    · cases hq : s.waitQueues q <;> simp [hm,hq,ThreadModel.popHeadThreadWait]
    · cases hq : s.waitQueues q <;> simpa [hq,ThreadModel.popHeadThreadWait,State.setQueue] using hh

section Wakeup

variable {malloc : ReadyQueue → Addr} (hmalloc : ∀ q : ReadyQueue, q.nodes (malloc q) = none)
  {ready : ReadyQueue} {r : List Tid}
include hmalloc

/-- The identifiers that are left are removed one by one; the round after the last of them sees
the `-1` of the empty queue. -/
theorem wakeupLoop_eq (n : ℕ) (wokeUp : ℤ) (h : Holds m queue tids) (hr : DoublyLinked.Holds ready r)
    (ht : tid ≠ -1) (hn : ∀ t ∈ tids, t ≠ -1) (hlen : tids.length+1 < n) : ∃ m' ready',
    wakeupLoop malloc queue n tid wokeUp (m,ready) = some (wokeUp+tids.length,m',ready') ∧
      Holds m' queue [] ∧ DoublyLinked.Holds ready' (r ++ tids) := by
  induction tids generalizing n tid wokeUp m ready r with
  | nil =>
    obtain ⟨n,rfl⟩ : ∃ k, n = k+2 := ⟨n-2,by rw [List.length_nil] at hlen; omega⟩
    obtain ⟨m',hm,hh⟩ := h.pop
    refine ⟨m',ready,?_,hh,by rwa [List.append_nil]⟩
    simp [wakeupLoop,ht,hm]
  | cons t tids ih =>
    obtain ⟨n,rfl⟩ := Nat.exists_eq_add_one_of_ne_zero (Nat.ne_zero_of_lt hlen)
    have htp : t ≠ -1 := hn t (by simp)
    obtain ⟨m₁,hm,hh⟩ := h.pop
    obtain ⟨ready₁,hready,hr₁⟩ : ∃ q, ListSequences.addToTail (malloc ready) t ready = some q ∧
        DoublyLinked.Holds q (r ++ [t]) := hr.pushBack (hmalloc ready) t
    obtain ⟨m',ready',hloop,hm',hr'⟩ := ih n (wokeUp+1) hh hr₁ htp (fun u hu => hn u (by simp [hu]))
      (by rw [List.length_cons] at hlen; exact Nat.lt_of_succ_lt_succ hlen)
    refine ⟨m',ready',?_,hm',by rwa [List.append_cons]⟩
    rw [List.head?_cons,Option.getD_some] at hm
    simp only [wakeupLoop,if_neg ht,hm,Option.bind_eq_bind,Option.bind_some,if_neg htp,hready,hloop,
      List.length_cons,Nat.cast_add,Nat.cast_one]
    rw [add_assoc,add_comm (1 : ℤ)]

/-- `thread_wakeup` with `all == 1` moves the whole queue behind the ready threads. -/
theorem threadWakeup_all (h : Holds m queue tids) (hr : DoublyLinked.Holds ready r)
    (hn : ∀ t ∈ tids, t ≠ -1) : ∃ m' ready',
    threadWakeup malloc (some queue) 1 (m,ready) = some ((tids.length : ℤ),m',ready') ∧
      Holds m' queue [] ∧ DoublyLinked.Holds ready' (r ++ tids) := by
  obtain ⟨next,hq,hnext⟩ := h.head_cell
  cases tids with
  | nil =>
    refine ⟨m,ready,?_,h,by rwa [List.append_nil]⟩
    simp [threadWakeup,hq,hnext]
  | cons t tids =>
    have hne : next ≠ none := fun he => List.cons_ne_nil _ _ (hnext.mp he)
    obtain ⟨m₁,hm,hh⟩ := h.pop
    obtain ⟨ready₁,hready,hr₁⟩ : ∃ q, ListSequences.addToTail (malloc ready) t ready = some q ∧
        DoublyLinked.Holds q (r ++ [t]) := hr.pushBack (hmalloc ready) t
    rw [List.tail_cons] at hh
    obtain ⟨m',ready',hloop,hm',hr'⟩ := wakeupLoop_eq hmalloc (m₁.bound+1) 1 hh hr₁
      (hn t (by simp)) (fun u hu => hn u (by simp [hu])) (Nat.succ_lt_succ hh.length_lt)
    refine ⟨m',ready',?_,hm',by rwa [List.append_cons]⟩
    rw [List.head?_cons,Option.getD_some] at hm
    simp only [threadWakeup,hq,Option.bind_eq_bind,Option.bind_some,if_neg hne,hm,hready,if_true,
      hloop,List.length_cons,Nat.cast_add,Nat.cast_one]
    rw [add_comm (1 : ℤ)]

/-- With `all` other than 1 it moves the first thread, if there is one. -/
theorem threadWakeup_first {all : ℤ} (h : Holds m queue tids) (hr : DoublyLinked.Holds ready r)
    (ha : all ≠ 1) : ∃ m' ready',
    threadWakeup malloc (some queue) all (m,ready) = some (((tids.take 1).length : ℤ),m',ready') ∧
      Holds m' queue tids.tail ∧ DoublyLinked.Holds ready' (r ++ tids.take 1) := by
  obtain ⟨next,hq,hnext⟩ := h.head_cell
  cases tids with
  | nil =>
    refine ⟨m,ready,?_,h,by rwa [List.take_nil,List.append_nil]⟩
    simp [threadWakeup,hq,hnext]
  | cons t tids =>
    have hne : next ≠ none := fun he => List.cons_ne_nil _ _ (hnext.mp he)
    obtain ⟨m₁,hm,hh⟩ := h.pop
    obtain ⟨ready₁,hready,hr₁⟩ : ∃ q, ListSequences.addToTail (malloc ready) t ready = some q ∧
        DoublyLinked.Holds q (r ++ [t]) := hr.pushBack (hmalloc ready) t
    refine ⟨m₁,ready₁,?_,hh,by simpa using hr₁⟩
    rw [List.head?_cons,Option.getD_some] at hm
    simp [threadWakeup,hq,hne,hm,hready,ha]

end Wakeup

end WaitLists
end OsLabs

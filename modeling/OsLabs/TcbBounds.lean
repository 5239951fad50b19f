import OsLabs.SchedulerRun

/-!
# Accesses to the array of control blocks

`TCBs` has an element for each identifier from 0 to `THREAD_MAX_THREADS-1`. In the model it is a
function of all integers; `outside T` puts other values everywhere else. Every function of the
package commutes with that as long as the queues hold identifiers in range, so no step of a run
reads or writes an element that the array does not have.
-/

namespace OsLabs
namespace TcbBounds

open ThreadModel Scheduler SchedulerView SchedulerRefinement SchedulerRun Transition

/-- The array has an element for the identifier. -/
def InTable (t : Tid) : Prop := 0 ≤ t ∧ t < threadMaxThreads

instance (t : Tid) : Decidable (InTable t) := by unfold InTable; infer_instance

/-- The same state, with other values outside of the array. -/
def outside (T : Tid → Thread) (s : State) : State :=
  { s with TCBs := fun t => if InTable t then s.TCBs t else T t }

/-- The identifiers that the functions take for indices. -/
structure Indexed (s : State) : Prop where
  current : InTable s.currentThreadId
  ready : ∀ t ∈ s.readyQueue, InTable t
  waits : ∀ queue, ∀ t ∈ s.waitQueues queue, InTable t
  available : ∀ t ∈ s.availableThreadIds, InTable t

theorem not_inTable_neg : ¬ InTable (-1) := by decide

section Functions

variable (T : Tid → Thread) {s : State} {i : Tid}

theorem outside_TCBs (h : InTable i) : (outside T s).TCBs i = s.TCBs i := if_pos h

theorem outside_tcb (h : InTable s.currentThreadId) : (outside T s).tcb = s.tcb := outside_TCBs T h

theorem outside_inst (h : InTable i) : (outside T s).inst i = s.inst i := by
  simp only [State.inst,outside_TCBs T h]

theorem outside_self (h : InTable s.currentThreadId) : (outside T s).self = s.self := outside_inst T h

theorem outside_modify (h : InTable i) (f : Thread → Thread) :
    (outside T s).modify i f = outside T (s.modify i f) := by
  simp only [outside,State.modify,State.mk.injEq,and_true]
  funext t
  by_cases ht : t = i
  · subst ht
    simp [h]
  · simp [ht]

theorem outside_freeTCBStacks : freeTCBStacks (outside T s) = outside T (freeTCBStacks s) := by
  simp only [outside,freeTCBStacks,State.mk.injEq,and_true]
  funext t
  by_cases ht : InTable t
  · simp [ht]
  · have hr : ¬ (1 ≤ t ∧ t < threadMaxThreads) := fun hr => ht ⟨le_trans (by decide) hr.1,hr.2⟩
    have hr' : ∀ p : Prop, ¬ (1 ≤ t ∧ t < threadMaxThreads ∧ p) := fun p hp => hr ⟨hp.1,hp.2.1⟩
    simp only [ht,if_false,if_neg (hr' _)]

theorem outside_switchTo (h : InTable i) : switchTo i (outside T s) = outside T (switchTo i s) := by
  have hm := outside_modify T (s := { s with currentThreadId := i }) h fun t => { t with tState := .running }
  change setcontext i (State.modify i _ (outside T { s with currentThreadId := i })) = _
  rw [hm]
  simp only [setcontext,outside_TCBs T h]
  rfl

theorem outside_returnTo : ∀ (k : List Frame) (v : ℤ) {s : State}, InTable s.currentThreadId →
    returnTo v k (outside T s) = outside T (returnTo v k s)
  | [], _, _, _ => rfl
  | f::k, v, s, h => by
    cases f with
    | sleep e => exact outside_returnTo k v (s := { s with interrupts := e }) h
    | wait tid e => exact outside_returnTo k tid (s := { s with interrupts := e }) h
    | cvReacquired cv l e => exact outside_returnTo k v (s := { s with interrupts := e }) h
    | call c =>
      simp only [returnTo,outside_self T h]
      rfl
    | _ => rfl

theorem outside_return (h : InTable s.currentThreadId) (v : ℤ) :
    return_ v (outside T s) = outside T (return_ v s) := outside_returnTo T s.frames v h

/-! ### Wake-up and exit -/

theorem outside_wakeupLoop (waker : Waker) (queue : WaitQueue) : ∀ (l : List Tid) (n : ℤ) {s : State},
    (∀ t ∈ l, InTable t) → wakeupLoop waker queue l n (outside T s) =
      ((wakeupLoop waker queue l n s).1,outside T (wakeupLoop waker queue l n s).2)
  | [], _, _, _ => rfl
  | t::l, n, s, h => by
    have ht : InTable t := h t (by simp)
    have hne : t ≠ -1 := by rintro rfl; exact not_inTable_neg ht
    simp only [wakeupLoop,if_neg hne,outside_inst T ht]
    exact outside_wakeupLoop waker queue l (n+1)
      (s := addToTail t ((s.setQueue queue l).record (.woken (s.inst t) queue waker)))
      fun u hu => h u (by simp [hu])

theorem outside_threadWakeup (waker : Waker) {queue : WaitQueue} (all : ℤ)
    (h : ∀ t ∈ s.waitQueues queue, InTable t) : threadWakeup waker queue all (outside T s) =
      ((threadWakeup waker queue all s).1,outside T (threadWakeup waker queue all s).2) := by
  have hq : (outside T s).waitQueues queue = s.waitQueues queue := rfl
  simp only [threadWakeup,hq]
  cases hs : s.waitQueues queue with
  | nil => rfl
  | cons t rest =>
    rw [hs] at h
    have ht : InTable t := h t (by simp)
    have hne : t ≠ -1 := by rintro rfl; exact not_inTable_neg ht
    simp only [outside_inst T ht,if_neg hne]
    split
    · exact outside_wakeupLoop T waker queue rest 1
        (s := addToTail t ((s.setQueue queue rest).record (.woken (s.inst t) queue waker)))
        fun u hu => h u (by simp [hu])
    · rfl

theorem Indexed.waits_ne (h : Indexed s) (queue : WaitQueue) : ∀ t ∈ s.waitQueues queue, t ≠ -1 := by
  rintro t ht rfl
  exact not_inTable_neg (h.waits queue _ ht)

theorem Indexed.ready_ne (h : Indexed s) : ∀ t ∈ s.readyQueue, t ≠ -1 := by
  rintro t ht rfl
  exact not_inTable_neg (h.ready _ ht)

theorem outside_exited (h : Indexed s) (marked : Bool) :
    exited marked (outside T s) = outside T (exited marked s) := by
  have hw : ((s.waitQueues (.tWait s.currentThreadId)).map fun t =>
      Event.woken ((outside T s).inst t) (.tWait s.currentThreadId) .threadExit) =
      (s.waitQueues (.tWait s.currentThreadId)).map fun t =>
        Event.woken (s.inst t) (.tWait s.currentThreadId) .threadExit :=
    List.map_congr_left fun t ht => by rw [outside_inst T (h.waits _ t ht)]
  have hs := outside_self T h.current
  simp only [exited,outside] at hw hs ⊢
  simp only [hw,hs,State.mk.injEq,and_true]
  refine ⟨funext fun t => ?_,trivial,trivial,trivial,rfl⟩
  by_cases ht : t = s.currentThreadId
  · subst ht
    simp [h.current]
  · simp [ht]

theorem outside_threadExit (h : Indexed s) (marked : Bool) :
    threadExit marked (outside T s) = outside T (threadExit marked s) := by
  rw [threadExit_eq (s := s) (h.waits_ne _),threadExit_eq (s := outside T s) (h.waits_ne _),
    outside_exited T h]
  have hready : ∀ t ∈ (exited marked s).readyQueue, InTable t := by
    intro t ht
    rcases List.mem_append.mp ht with ht | ht
    · exact h.ready t ht
    · exact h.waits _ t ht
  have hr : (outside T (exited marked s)).readyQueue = (exited marked s).readyQueue := rfl
  cases hq : (exited marked s).readyQueue with
  | nil =>
    simp only [removeNextReadyThread,hr,hq,if_true,outside_freeTCBStacks]
    rfl
  | cons x rest =>
    have hx : InTable x := hready x (by rw [hq]; exact List.mem_cons_self)
    have hne : x ≠ -1 := by rintro rfl; exact not_inTable_neg hx
    simp only [removeNextReadyThread,hr,hq,if_neg hne]
    exact outside_switchTo T (s := { exited marked s with readyQueue := rest }) hx

/-! ### Context switches -/

/-- The yielding block puts the thread into the queue it asked for, or into the ready queue. -/
def queued (s : State) : State :=
  match s.tcb.waitQueue with
  | some queue =>
    ((pushThreadToWait queue s.currentThreadId s).record (.slept s.self queue)).modify s.currentThreadId
      fun t => { t with waitQueue := none }
  | none => addToTail s.currentThreadId s

theorem outside_queued (h : InTable s.currentThreadId) : queued (outside T s) = outside T (queued s) := by
  simp only [queued,outside_tcb T h,outside_self T h]
  cases s.tcb.waitQueue with
  | none => rfl
  | some queue =>
    exact outside_modify T h (s := (pushThreadToWait queue s.currentThreadId s).record (.slept s.self queue)) _

theorem outside_yieldingBlock {x o : Tid} (hx : InTable x) (ho : InTable o) (h : InTable s.currentThreadId) :
    yieldingBlock x o (outside T s) = outside T (yieldingBlock x o s) := by
  have hq : ∀ s, yieldingBlock x o s = switchTo x ((queued (s.modify s.currentThreadId
      fun t => { t with tState := .ready })).modify o fun t => { t with setcontextCalled := true }) :=
    fun _ => rfl
  have hc : (outside T s).currentThreadId = s.currentThreadId := rfl
  rw [hq,hq,hc,outside_modify T h,outside_queued T (s := s.modify s.currentThreadId _) h,
    outside_modify T ho,outside_switchTo T hx]

theorem Indexed.freeTCBStacks (h : Indexed s) : Indexed (freeTCBStacks s) := { h with }

/-- The code of the yielding block is reached with the flag of the thread off. -/
theorem outside_afterGetcontext {x o : Tid} (tk : Tid) (enabled : Bool) (h : Indexed s)
    (hxo : s.tcb.setcontextCalled = false → InTable x ∧ InTable o) :
    afterGetcontext x o tk enabled (outside T s) = outside T (afterGetcontext x o tk enabled s) := by
  have hf := h.freeTCBStacks
  have htcb : (outside T (freeTCBStacks s)).tcb = (freeTCBStacks s).tcb := outside_tcb T hf.current
  have hc : (outside T (freeTCBStacks s)).currentThreadId = (freeTCBStacks s).currentThreadId := rfl
  simp only [afterGetcontext,outside_freeTCBStacks,htcb,hc]
  split
  · exact outside_threadExit T hf true
  split
  · rename_i hset
    obtain ⟨b,hb⟩ := freeTCBStacks_TCBs s s.currentThreadId
    have htcb' : (freeTCBStacks s).tcb = { s.tcb with stackToFree := b } := hb
    have hset' : (freeTCBStacks s).tcb.setcontextCalled = s.tcb.setcontextCalled := by rw [htcb']
    obtain ⟨hx,ho⟩ := hxo (hset' ▸ hset)
    exact outside_yieldingBlock T hx ho hf.current
  · rw [outside_modify T hf.current]
    exact outside_return T (s := { (freeTCBStacks s).modify (freeTCBStacks s).currentThreadId
      (fun t => { t with setcontextCalled := false }) with interrupts := enabled }) hf.current tk

theorem outside_yieldTo {x : Tid} (hx : InTable x) (enabled : Bool) (h : Indexed s) :
    yieldTo x enabled (outside T s) = outside T (yieldTo x enabled s) := by
  have hc : (outside T s).currentThreadId = s.currentThreadId := rfl
  simp only [yieldTo,hc,outside_modify T h.current]
  exact outside_afterGetcontext T (s := s.modify s.currentThreadId _) x enabled { h with }
    fun _ => ⟨hx,h.current⟩

theorem outside_threadYield (w : Tid) (h : Indexed s) :
    threadYield w (outside T s) = outside T (threadYield w s) := by
  have hc : (outside T s).currentThreadId = s.currentThreadId := rfl
  have hr : (outside T s).readyQueue = s.readyQueue := rfl
  have fails : ∀ v, return_ v (outside T s) = outside T (return_ v s) := outside_return T h.current
  have takes : ∀ x ∈ s.readyQueue, ∀ rest, (∀ t ∈ rest, t ∈ s.readyQueue) →
      yieldTo x s.interrupts { outside T s with interrupts := false, readyQueue := rest } =
        outside T (yieldTo x s.interrupts { s with interrupts := false, readyQueue := rest }) :=
    fun x hx rest hrest => outside_yieldTo T (s := { s with interrupts := false, readyQueue := rest })
      (h.ready x hx) s.interrupts { h with ready := fun t ht => h.ready t (hrest t ht) }
  by_cases h₁ : w ≥ threadMaxThreads ∨ w < -7
  · simp only [threadYield,if_pos h₁]
    exact fails _
  by_cases h₂ : threadSelf = w
  · simp only [threadYield,if_neg h₁,if_pos h₂]
    exact fails _
  by_cases h₃ : w = s.currentThreadId
  · simp only [threadYield,if_neg h₁,if_neg h₂,hc,if_pos h₃]
    exact fails _
  have hslot : w ≥ 0 → (outside T s).TCBs w = s.TCBs w := fun hw =>
    outside_TCBs T ⟨hw,lt_of_not_ge fun hge => h₁ (.inl hge)⟩
  have hslot' : (w ≥ 0 ∧ ((outside T s).TCBs w).tState = .notAssigned) ↔
      (w ≥ 0 ∧ (s.TCBs w).tState = .notAssigned) :=
    and_congr_right fun hw => by rw [hslot hw]
  by_cases h₄ : w ≥ 0 ∧ (s.TCBs w).tState = .notAssigned
  · simp only [threadYield,if_neg h₁,if_neg h₂,hc,if_neg h₃,if_pos h₄,if_pos (hslot'.mpr h₄)]
    exact fails _
  simp only [threadYield,if_neg h₁,if_neg h₂,hc,if_neg h₃,if_neg h₄,if_neg (mt hslot'.mp h₄)]
  by_cases h₅ : w = threadAny
  · simp only [if_pos h₅,removeNextReadyThread,hr]
    cases hq : s.readyQueue with
    | nil => exact fails _
    | cons x rest =>
      have hx : x ∈ s.readyQueue := by rw [hq]; exact List.mem_cons_self
      simp only [if_neg (h.ready_ne x hx)]
      exact takes x hx rest fun t ht => by rw [hq]; exact List.mem_cons_of_mem x ht
  · simp only [if_neg h₅,removeFromReadyQueue,hr]
    by_cases hm : w ∈ s.readyQueue
    · simp only [if_pos hm,if_neg (h.ready_ne w hm)]
      exact takes w hm _ fun t ht => List.mem_of_mem_erase ht
    · simp only [if_neg hm,if_true]
      exact fails _

theorem outside_threadSleep (q : Option WaitQueue) (h : Indexed s) :
    threadSleep q (outside T s) = outside T (threadSleep q s) := by
  cases q with
  | none => exact outside_return T h.current _
  | some queue =>
    have hr : (outside T s).readyQueue = s.readyQueue := rfl
    cases hq : s.readyQueue with
    | nil =>
      simp only [threadSleep,hr,hq]
      exact outside_return T h.current _
    | cons x rest =>
      have hc : (outside T s).currentThreadId = s.currentThreadId := rfl
      simp only [threadSleep,hr,hq,hc,outside_modify T h.current]
      exact outside_threadYield T (s := { s.modify s.currentThreadId
        (fun t => { t with waitQueue := some queue }) with
          interrupts := false, frames := .sleep s.interrupts::s.frames }) x { h with }

/-! ### Calls -/

theorem outside_threadCreate (stack : Bool) (h : Indexed s) :
    threadCreate stack (outside T s) = outside T (threadCreate stack s) := by
  have hc : (outside T s).currentThreadId = s.currentThreadId := rfl
  have ha : ∀ f, (outside T (s.modify s.currentThreadId f)).availableThreadIds = s.availableThreadIds :=
    fun _ => rfl
  have ha' : ∀ f, (s.modify s.currentThreadId f).availableThreadIds = s.availableThreadIds := fun _ => rfl
  simp only [threadCreate,hc,outside_modify T h.current,removeFromHead,ha,ha']
  cases hq : s.availableThreadIds with
  | nil => exact outside_return T (s := s.modify s.currentThreadId _) h.current _
  | cons id rest =>
    have hid : InTable id := h.available id (by rw [hq]; exact List.mem_cons_self)
    have hne : id ≠ -1 := by rintro rfl; exact not_inTable_neg hid
    have taken : ∀ f g, State.modify id g { outside T (s.modify s.currentThreadId f) with
        availableThreadIds := rest } =
        outside T (State.modify id g { s.modify s.currentThreadId f with availableThreadIds := rest }) :=
      fun f g => outside_modify T (s := { s.modify s.currentThreadId f with availableThreadIds := rest })
        hid g
    simp only [if_neg hne,taken]
    split
    · exact outside_return T (s := State.modify id _ { s.modify s.currentThreadId _ with
        availableThreadIds := rest }) h.current _
    · have finish : ∀ {s : State}, InTable s.currentThreadId →
          return_ id (addToTail id ((outside T s).record (.created ((outside T s).inst id)))) =
            outside T (return_ id (addToTail id (s.record (.created (s.inst id))))) := fun {s} h => by
        rw [outside_inst T hid]
        exact outside_return T (s := addToTail id (s.record (.created (s.inst id)))) h id
      simp only [outside_modify T hid]
      exact finish h.current

theorem outside_threadKill (tid : Tid) (h : Indexed s) :
    threadKill tid (outside T s) = outside T (threadKill tid s) := by
  have hc : (outside T s).currentThreadId = s.currentThreadId := rfl
  by_cases h₁ : tid ≥ 1024 ∨ tid < -7
  · simp only [threadKill,if_pos h₁]
    exact outside_return T h.current _
  by_cases h₂ : tid = s.currentThreadId
  · simp only [threadKill,if_neg h₁,hc,if_pos h₂]
    exact outside_return T h.current _
  by_cases h₃ : tid < 0
  · simp only [threadKill,if_neg h₁,hc,if_neg h₂,if_pos h₃]
    rfl
  have ht : InTable tid := ⟨not_lt.mp h₃,lt_of_not_ge fun hge => h₁ (.inl hge)⟩
  simp only [threadKill,if_neg h₁,hc,if_neg h₂,if_neg h₃,outside_TCBs T ht,outside_modify T ht,
    outside_self T h.current,outside_inst T ht]
  split
  · exact outside_return T h.current _
  · rfl

theorem outside_threadWait (tid : Tid) (h : Indexed s) :
    threadWait tid (outside T s) = outside T (threadWait tid s) := by
  have hc : (outside T s).currentThreadId = s.currentThreadId := rfl
  by_cases h₁ : tid < 0 ∨ tid = s.currentThreadId
  · simp only [threadWait,hc,if_pos h₁]
    exact outside_return T h.current _
  by_cases h₂ : tid ≥ threadMaxThreads
  · simp only [threadWait,hc,if_neg h₁,if_pos h₂]
    rfl
  have ht : InTable tid := ⟨not_lt.mp fun hlt => h₁ (.inl hlt),lt_of_not_ge h₂⟩
  simp only [threadWait,hc,if_neg h₁,if_neg h₂,outside_TCBs T ht]
  split
  · exact outside_return T h.current _
  · exact outside_threadSleep T (s := { s with
      interrupts := false, frames := .wait tid s.interrupts::s.frames }) _ { h with }

theorem outside_acquireLoop (lock : ℕ) (enabled : Bool) (h : Indexed s) :
    acquireLoop lock enabled (outside T s) = outside T (acquireLoop lock enabled s) := by
  have hc : (outside T s).currentThreadId = s.currentThreadId := rfl
  have hl : (outside T s).locks = s.locks := rfl
  have hs : ((outside T s).setLock lock (some ⟨true,s.currentThreadId⟩)).record
      (.acquired (outside T s).self lock) =
      outside T ((s.setLock lock (some ⟨true,s.currentThreadId⟩)).record (.acquired s.self lock)) := by
    rw [outside_self T h.current]
    rfl
  cases hq : s.locks lock with
  | none =>
    simp only [acquireLoop,hl,hq]
    rfl
  | some l =>
    simp only [acquireLoop,hl,hq,hc]
    split
    · rw [hs]
      exact outside_return T (s := { (s.setLock lock (some ⟨true,s.currentThreadId⟩)).record
        (.acquired s.self lock) with interrupts := enabled }) h.current 0
    · exact outside_threadSleep T (s := { s with frames := .acquire lock enabled::s.frames }) _ { h with }

theorem Indexed.threadWakeup (h : Indexed s) (waker : Waker) (queue : WaitQueue) (all : ℤ) :
    Indexed (threadWakeup waker queue all s).2 := by
  obtain ⟨l,rest,hq,-,-,-,hs⟩ := threadWakeup_eq waker queue all s (h.waits_ne queue)
  have hmem : ∀ t ∈ l ++ rest, InTable t := fun t ht => h.waits queue t (by rw [hq]; exact ht)
  rw [hs]
  refine { h with ready := fun t ht => ?_, waits := fun q t ht => ?_ }
  · rcases List.mem_append.mp ht with ht | ht
    · exact h.ready t ht
    · exact hmem t (List.mem_append_left rest ht)
  · simp only at ht
    split at ht
    · exact hmem t (List.mem_append_right l ht)
    · exact h.waits q t ht

theorem Indexed.releaseLock (h : Indexed s) (lock : ℕ) : Indexed (releaseLock lock s) := by
  simp only [ThreadModel.releaseLock]
  split
  · have hw := Indexed.threadWakeup (s := s.record (.passed s.self lock)) { h with } .lockRelease
      (.waitOnLock lock) 1
    exact { hw with }
  · exact h

theorem outside_releaseLock (lock : ℕ) (h : Indexed s) :
    releaseLock lock (outside T s) = outside T (releaseLock lock s) := by
  have ho : ownsLock lock (outside T s) = ownsLock lock s := rfl
  have hp : (outside T s).record (.passed s.self lock) = outside T (s.record (.passed s.self lock)) := rfl
  simp only [releaseLock,ho,outside_self T h.current]
  split
  · have hw := Indexed.threadWakeup (s := s.record (.passed s.self lock)) { h with } .lockRelease
      (.waitOnLock lock) 1
    rw [hp,outside_threadWakeup T (s := s.record (.passed s.self lock)) .lockRelease 1 (h.waits _)]
    let s₁ := (threadWakeup .lockRelease (.waitOnLock lock) 1 (s.record (.passed s.self lock))).2.setLock
      lock (some ⟨false,-1⟩)
    change (outside T s₁).record (.released (outside T s₁).self lock) = _
    rw [outside_self T (s := s₁) hw.current]
    rfl
  · rfl

theorem outside_withLock {lock : ℕ} {f : State → State} (hf : f (outside T s) = outside T (f s)) :
    withLock lock f (outside T s) = outside T (withLock lock f s) := by
  have hl : (outside T s).locks = s.locks := rfl
  simp only [withLock,hl]
  split
  · exact hf
  · rfl

theorem outside_withQueue {queue : WaitQueue} {f : State → State}
    (hf : f (outside T s) = outside T (f s)) :
    withQueue queue f (outside T s) = outside T (withQueue queue f s) := by
  have hq : (outside T s).freed = s.freed := rfl
  simp only [withQueue,hq]
  split
  · rfl
  · exact hf

theorem outside_cvWait (cv lock : ℕ) (h : Indexed s) :
    cvWait cv lock (outside T s) = outside T (cvWait cv lock s) := by
  refine outside_withQueue T (outside_withLock T ?_)
  have ho : ownsLock lock (outside T s) = ownsLock lock s := rfl
  simp only [ho,outside_self T h.current]
  split
  · let s₁ : State := { s.record (.passed s.self lock) with
      interrupts := false, frames := .cvSlept cv lock s.interrupts::s.frames }
    have h₁ : Indexed s₁ := { h with }
    change threadSleep _ (releaseLock lock (outside T s₁)) = outside T (threadSleep _ (releaseLock lock s₁))
    rw [outside_releaseLock T lock h₁,outside_threadSleep T _ (h₁.releaseLock lock)]
  · exact outside_return T h.current 0

theorem outside_cvWakeup (waker : Waker) (all : ℤ) (cv lock : ℕ) (h : Indexed s) :
    cvWakeup waker all cv lock (outside T s) = outside T (cvWakeup waker all cv lock s) := by
  refine outside_withQueue T (outside_withLock T ?_)
  have ho : ownsLock lock (outside T s) = ownsLock lock s := rfl
  simp only [ho,outside_self T h.current]
  split
  · let s₁ := s.record (.passed s.self lock)
    have h₁ : Indexed s₁ := { h with }
    change return_ 0 (threadWakeup _ _ _ (outside T s₁)).2 = outside T (return_ 0 (threadWakeup _ _ _ s₁).2)
    rw [outside_threadWakeup T waker all (h₁.waits _)]
    exact outside_return T (h₁.threadWakeup waker _ all).current 0
  · exact outside_return T h.current 0

theorem outside_waitQueueDestroy (queue : WaitQueue) :
    waitQueueDestroy queue (outside T s) = outside T (waitQueueDestroy queue s) :=
  outside_withQueue T rfl

theorem outside_lockDestroy (lock : ℕ) :
    lockDestroy lock (outside T s) = outside T (lockDestroy lock s) := by
  have hl : (outside T s).locks = s.locks := rfl
  simp only [lockDestroy,hl]
  split
  · rfl
  split
  · rfl
  · exact outside_waitQueueDestroy T _

theorem outside_destroyLoop (queue : WaitQueue) (h : Indexed s) :
    destroyLoop queue (outside T s) = outside T (destroyLoop queue s) := by
  refine outside_withQueue T ?_
  have hw : (outside T s).waitQueues = s.waitQueues := rfl
  cases hq : s.waitQueues queue with
  | nil =>
    simp only [popHeadThreadWait,hw,hq,if_true]
    rfl
  | cons t rest =>
    have ht : t ≠ -1 := h.waits_ne _ t (by rw [hq]; exact List.mem_cons_self)
    simp only [popHeadThreadWait,hw,hq,if_neg ht]
    rfl

theorem outside_destroyEnd (queue : WaitQueue) (h : Indexed s) :
    destroyEnd queue (outside T s) = outside T (destroyEnd queue s) := by
  refine outside_withQueue T ?_
  cases queue with
  | waitOnLock lock =>
    exact outside_return T (s := (freeWaitQueue (.waitOnLock lock) s).setLock lock none) h.current 0
  | _ => exact outside_return T (s := freeWaitQueue _ s) h.current 0

theorem outside_doCall (c : Call) (h : Indexed s) :
    doCall c (outside T s) = outside T (doCall c s) := by
  cases c with
  | threadId => exact outside_return T h.current _
  | threadCreate stack => exact outside_threadCreate T stack h
  | threadYield w => exact outside_threadYield T w h
  | threadExit => exact outside_threadExit T h false
  | threadKill tid => exact outside_threadKill T tid h
  | threadSleep q =>
    cases q with
    | none => exact outside_threadSleep T none h
    | some n => exact outside_withQueue T (outside_threadSleep T _ h)
  | threadWakeup q all =>
    cases q with
    | none => exact outside_return T h.current 0
    | some n =>
      refine outside_withQueue T (f := fun s =>
        let r := threadWakeup .threadWakeup (.created n) all s
        return_ r.1 r.2) ?_
      simp only [outside_threadWakeup T .threadWakeup all (h.waits _)]
      exact outside_return T (h.threadWakeup .threadWakeup _ all).current _
  | threadWait tid => exact outside_threadWait T tid h
  | lockAcquire lock =>
    exact outside_acquireLoop T (s := { s with interrupts := false }) lock s.interrupts { h with }
  | lockRelease lock =>
    refine outside_withLock T (f := fun s => return_ 0 (releaseLock lock s)) ?_
    rw [outside_releaseLock T lock h]
    exact outside_return T (h.releaseLock lock).current 0
  | lockDestroy lock => exact outside_lockDestroy T lock
  | cvDestroy cv => exact outside_waitQueueDestroy T _
  | waitQueueDestroy q =>
    cases q with
    | none => rfl
    | some n => exact outside_waitQueueDestroy T _
  | cvWait cv lock => exact outside_cvWait T cv lock h
  | cvSignal cv lock => exact outside_cvWakeup T _ _ cv lock h
  | cvBroadcast cv lock => exact outside_cvWakeup T _ _ cv lock h

/-! ### Steps -/

/-- A thread that resumes `thread_yield` has its flag on. -/
theorem outside_resume (h : Indexed s) (hy : ∀ n o tk e k, s.frames = .yielded n o tk e::k →
    s.tcb.setcontextCalled = true) : resume (outside T s) = (resume s).map (outside T) := by
  have hf : (outside T s).frames = s.frames := rfl
  simp only [resume,hf,outside_tcb T h.current,outside_freeTCBStacks]
  split
  · rfl
  · rfl
  · split
    · exact congrArg some (outside_threadExit T h true)
    · rfl
  · exact congrArg some (outside_threadExit T h false)
  · rename_i n o tk e k hk
    refine congrArg some (outside_afterGetcontext T (s := { s with frames := k }) tk e { h with } fun hc => ?_)
    have hc' : s.tcb.setcontextCalled = false := hc
    rw [hy n o tk e k hk] at hc'
    cases hc'
  · rename_i lock e k hk
    exact congrArg some (outside_acquireLoop T (s := { s with frames := k }) lock e { h with })
  · rename_i cv lock e k hk
    exact congrArg some (outside_acquireLoop T (s := { s with
      interrupts := false, frames := .cvReacquired cv lock e::k }) lock s.interrupts { h with })
  · rename_i tid k hk
    exact congrArg some (outside_return T (s := { s with frames := k }) h.current tid)
  · rename_i queue k hk
    exact congrArg some (outside_destroyLoop T (s := { s with frames := k }) queue { h with })
  · rename_i queue k hk
    exact congrArg some (outside_destroyEnd T (s := { s with frames := k }) queue { h with })
  · rfl

theorem outside_step (a : Action) (h : Indexed s) (hy : ∀ n o tk e k, s.frames = .yielded n o tk e::k →
    s.tcb.setcontextCalled = true) : step (outside T s) a = (step s a).map (outside T) := by
  have hst : (outside T s).status = s.status := rfl
  have hf : (outside T s).frames = s.frames := rfl
  have hi : (outside T s).interrupts = s.interrupts := rfl
  have hself := outside_self T h.current
  simp only [step,hst,hf,hi,hself]
  split
  · rfl
  cases a with
  | run => exact outside_resume T h hy
  | timer =>
    simp only
    split
    · exact congrArg some (outside_threadYield T (s := { s with
        interrupts := false, frames := .handler::s.frames }) threadAny { h with })
    · rfl
  | call c =>
    simp only
    split
    · rename_i k hk
      exact congrArg some (outside_doCall T (s := { s.record (.call s.self c s.interrupts) with
        frames := .call c::.own::k }) c { h with })
    · rfl
  | compute =>
    simp only
    split <;> rfl
  | interruptsSet e =>
    simp only
    split <;> rfl
  | finish =>
    simp only
    split <;> rfl

end Functions

/-- No step of a run reads or writes an element that the array does not have, except by leaving the
model: it does the same whatever stands there, and leaves it there. -/
theorem outside_step_of_reachable {ok : State → Action → Prop} {s : State} (h : Reachable ok s)
    (hr : s.status = .running) (T : Tid → Thread) (a : Action) :
    step (outside T s) a = (step s a).map (outside T) := by
  obtain ⟨hs,hc⟩ := sound_control_of_reachable h hr
  refine outside_step T a ⟨hs.current_range,fun t ht => hs.range .ready t ht,
    fun queue t ht => hs.range (.waiting queue) t ht,fun t ht => hs.range .available t ht⟩ ?_
  intro n o tk e k hf
  cases hc.here with
  | entry hf' => simp [hf] at hf'
  | point hp => rw [hf] at hp; cases hp with | own hb => cases hb
  | midway hm => rw [hf] at hm; cases hm
  | yielded _ _ _ _ _ _ _ _ hset => exact hset

end TcbBounds
end OsLabs

import OsLabs.FifoTurns
import OsLabs.SchedulerRun

/-!
# The order of the ready queue

Every step of the thread package that loses no ready thread is a turn of the ready
queue: it only makes threads ready, behind the others, or it hands control to the
first thread, or to the one that `thread_yield` names. So a thread that waits in the
ready queue is overtaken by named threads only, and runs after as many other switches,
or timer interrupts, as there were threads in front of it, and one more.
-/

namespace OsLabs
namespace ReadyOrder

open ThreadModel Scheduler SchedulerView SchedulerRefinement SchedulerRun FifoTurns Transition

/-- `thread_yield` names the thread that is to run. -/
def names : Action → Bool
  | .call (.threadYield w) => w != threadAny
  | _ => false

/-- What the step from `s` by `a` makes of the ready queue and of the running thread. -/
structure TurnOf (a : Action) (s s' : State) (v : Served Tid) : Prop where
  turn : Turn s.readyQueue v s'.readyQueue
  nobody : v = .nobody → s'.currentThreadId = s.currentThreadId
  first : ∀ x, v = .first x → s'.currentThreadId = x
  named : ∀ x, v = .named x → s'.currentThreadId = x ∧ names a = true

variable {s s' : State} {a : Action}

/-- The ready queue and the running thread are the same. -/
def SameTurn (s s' : State) : Prop :=
  s'.readyQueue = s.readyQueue ∧ s'.currentThreadId = s.currentThreadId

theorem SameTurn.trans {u : State} (h : SameTurn s s') (h' : SameTurn s' u) : SameTurn s u :=
  ⟨h'.1.trans h.1,h'.2.trans h.2⟩

/-- Some threads become ready and the running one goes on. -/
theorem TurnOf.joins {l : List Tid} (hr : s'.readyQueue = s.readyQueue ++ l)
    (hc : s'.currentThreadId = s.currentThreadId) : TurnOf a s s' .nobody where
  turn := hr ▸ .nobody l
  nobody _ := hc
  first _ h := by cases h
  named _ h := by cases h

theorem SameTurn.turnOf (h : SameTurn s s') : TurnOf a s s' .nobody :=
  .joins (l := []) (by rw [h.1,List.append_nil]) h.2

/-- Some threads become ready and then the first one runs. -/
theorem TurnOf.head {x : Tid} {l m rest : List Tid} (hq : s.readyQueue ++ l = x::rest)
    (hr : s'.readyQueue = rest ++ m) (hc : s'.currentThreadId = x) :
    TurnOf a s s' (.first x) where
  turn := hr ▸ .first l m hq
  nobody h := by cases h
  first y h := by cases h; exact hc
  named _ h := by cases h

/-! ### Returns and switches -/

theorem returnTo_sameTurn (v : ℤ) : ∀ (k : List Frame) (s : State), SameTurn s (returnTo v k s)
  | [], _ => ⟨rfl,rfl⟩
  | f::k, s => by
    cases f with
    | sleep e => exact returnTo_sameTurn v k { s with interrupts := e }
    | wait tid e => exact returnTo_sameTurn tid k { s with interrupts := e }
    | cvReacquired cv l e => exact returnTo_sameTurn v k { s with interrupts := e }
    | _ => exact ⟨rfl,rfl⟩

theorem return_sameTurn (v : ℤ) (s : State) : SameTurn s (return_ v s) :=
  returnTo_sameTurn v s.frames s

/-- `thread_yield` hands control to the thread that it took out of the ready queue. -/
theorem yieldTo_runs {x : Tid} (enabled : Bool) (hx : x ≠ s.currentThreadId)
    (hk : s.tcb.killOnNextRun = false) (hc : s.tcb.setcontextCalled = false) :
    (∃ m, (yieldTo x enabled { s with interrupts := false, readyQueue := s.readyQueue.erase x }
        ).readyQueue = s.readyQueue.erase x ++ m) ∧
      (yieldTo x enabled { s with interrupts := false, readyQueue := s.readyQueue.erase x }
        ).currentThreadId = x := by
  obtain ⟨b,hb⟩ := gotContext_tcb x enabled s
  have hk' : (gotContext x enabled s).tcb.killOnNextRun = false := by rw [hb]; exact hk
  have hc' : (gotContext x enabled s).tcb.setcontextCalled = false := by rw [hb]; exact hc
  rw [yieldTo_eq,hk',hc']
  have he := yieldingBlock_eq (s := gotContext x enabled s) (x := x) hx
  have hy : yieldingBlock x s.currentThreadId (gotContext x enabled s) =
    yieldingBlock x (gotContext x enabled s).currentThreadId (gotContext x enabled s) := rfl
  simp only [Bool.false_eq_true,if_false,if_true]
  rw [hy,he]
  refine ⟨?_,rfl⟩
  cases (gotContext x enabled s).tcb.waitQueue with
  | none => exact ⟨[s.currentThreadId],rfl⟩
  | some queue => exact ⟨[],(List.append_nil _).symm⟩

theorem threadYield_any {x : Tid} {rest : List Tid} (h₀ : 0 ≤ s.currentThreadId) (hx : x ≠ -1)
    (hr : s.readyQueue = x::rest) : threadYield threadAny s =
      yieldTo x s.interrupts { s with interrupts := false, readyQueue := s.readyQueue.erase x } := by
  have h₁ : ¬ (-1 : ℤ) = s.currentThreadId := fun he => absurd (he ▸ h₀) (by decide)
  simp [threadYield,removeNextReadyThread,h₁,hr,hx,threadMaxThreads,threadSelf,threadAny]

theorem threadYield_any_nil (hr : s.readyQueue = []) :
    ∃ v, threadYield threadAny s = return_ v s := by
  rcases threadYield_cases threadAny s with h | ⟨x,hx,-⟩
  · exact h
  · simp [hr] at hx

/-! ### The threads in the queues -/

structure Runnable (s : State) (x : Tid) : Prop where
  nonneg : 0 ≤ x
  lt : x < threadMaxThreads
  ready : (s.TCBs x).tState = .ready
  ne_current : x ≠ s.currentThreadId

theorem Runnable.ne {x : Tid} (h : Runnable s x) : x ≠ -1 := by
  rintro rfl
  exact absurd h.nonneg (by decide)

/-- Who stands in a queue can run. -/
structure Queues (s : State) : Prop where
  current : 0 ≤ s.currentThreadId
  ready : ∀ x ∈ s.readyQueue, Runnable s x
  waiting : ∀ q, ∀ x ∈ s.waitQueues q, Runnable s x

theorem Queues.of_inv (h : Inv (view s)) : Queues s where
  current := h.current_range.1
  ready x hx := ⟨(h.ready_range hx).1,(h.ready_range hx).2,h.ready x hx,h.ne_current_of_ready hx⟩
  waiting q x hx :=
    ⟨(h.range (.waiting q) x hx).1,(h.range (.waiting q) x hx).2,h.waiting q x hx,h.ne_current_of_waiting hx⟩

theorem Queues.congr (h : Queues s) (hr : s'.readyQueue = s.readyQueue)
    (hw : s'.waitQueues = s.waitQueues) (hc : s'.currentThreadId = s.currentThreadId)
    (ht : ∀ x, (s'.TCBs x).tState = (s.TCBs x).tState) : Queues s' := by
  have run : ∀ x, Runnable s x → Runnable s' x := fun x hx =>
    ⟨hx.nonneg,hx.lt,(ht x).trans hx.ready,hc ▸ hx.ne_current⟩
  refine ⟨hc ▸ h.current,fun x hx => run x (h.ready x (hr ▸ hx)),fun q x hx => run x ?_⟩
  exact h.waiting q x (hw ▸ hx)

/-- The running thread may hand control to another one. -/
def Free (s : State) : Prop :=
  s.readyQueue ≠ [] → s.tcb.killOnNextRun = false ∧ s.tcb.setcontextCalled = false

/-- Control goes to the first ready thread, or nothing changes. -/
def HandsOver (s s' : State) : Prop :=
  SameTurn s s' ∨ ∃ x rest m, s.readyQueue = x::rest ∧ s'.readyQueue = rest ++ m ∧
    s'.currentThreadId = x

/-- Some threads become ready before control is handed over. -/
theorem HandsOver.turnOf {u : State} {l : List Tid} (h : HandsOver u s')
    (hr : u.readyQueue = s.readyQueue ++ l) (hc : u.currentThreadId = s.currentThreadId) :
    ∃ v, TurnOf a s s' v := by
  rcases h with h | ⟨x,rest,m,hx,hm,hc'⟩
  · exact ⟨_,.joins (h.1.trans hr) (h.2.trans hc)⟩
  · exact ⟨_,.head (hr.symm.trans hx) hm hc'⟩

theorem HandsOver.turn (h : HandsOver s s') : ∃ v, TurnOf a s s' v :=
  h.turnOf (l := []) (List.append_nil _).symm rfl

theorem threadYield_any_handsOver (h : Queues s) (hf : Free s) :
    HandsOver s (threadYield threadAny s) := by
  cases hr : s.readyQueue with
  | nil =>
    obtain ⟨v,hv⟩ := threadYield_any_nil hr
    exact .inl (hv ▸ return_sameTurn v s)
  | cons x rest =>
    have hx := h.ready x (by simp [hr])
    obtain ⟨hk,hc⟩ := hf (by simp [hr])
    obtain ⟨⟨m,hm⟩,hcur⟩ := yieldTo_runs s.interrupts hx.ne_current hk hc
    rw [threadYield_any h.current hx.ne hr]
    exact .inr ⟨x,rest,m,hr,by rw [hm,hr,List.erase_cons_head],hcur⟩

/-- `thread_sleep` hands control to the first ready thread. -/
theorem threadSleep_handsOver (queue : Option WaitQueue) (h : Queues s) (hf : Free s) :
    HandsOver s (threadSleep queue s) := by
  cases queue with
  | none => exact .inl (return_sameTurn _ s)
  | some queue =>
    cases hr : s.readyQueue with
    | nil =>
      simp only [threadSleep,hr]
      exact .inl (return_sameTurn _ s)
    | cons x rest =>
      have hx := h.ready x (by simp [hr])
      obtain ⟨hk,hc⟩ := hf (by simp [hr])
      simp only [threadSleep,hr]
      let s₁ : State := { s.modify s.currentThreadId (fun t => { t with waitQueue := some queue }) with
        interrupts := false, frames := .sleep s.interrupts::s.frames }
      have ht : (s₁.TCBs x).tState = .ready := by
        simp [s₁,State.modify,hx.ne_current,hx.ready]
      have hk₁ : s₁.tcb.killOnNextRun = false := by simpa [s₁,State.tcb,State.modify] using hk
      have hc₁ : s₁.tcb.setcontextCalled = false := by simpa [s₁,State.tcb,State.modify] using hc
      have hm₁ : x ∈ s₁.readyQueue := by simp [s₁,State.modify,hr]
      change HandsOver s (threadYield x s₁)
      rw [threadYield_ready hm₁ hx.nonneg hx.lt ht hx.ne_current]
      obtain ⟨⟨m,hm⟩,hcur⟩ := yieldTo_runs (s := s₁) s₁.interrupts hx.ne_current hk₁ hc₁
      refine .inr ⟨x,rest,m,hr,hm.trans ?_,hcur⟩
      simp [s₁,State.modify,hr]

theorem acquireLoop_handsOver (lock : ℕ) (enabled : Bool) (h : Queues s)
    (hf : taken lock s = true → Free s) : HandsOver s (acquireLoop lock enabled s) := by
  cases hl : s.locks lock with
  | none =>
    simp only [acquireLoop,hl]
    exact .inl ⟨rfl,rfl⟩
  | some l =>
    simp only [acquireLoop,hl]
    split
    · exact .inl (SameTurn.trans ⟨rfl,rfl⟩ (return_sameTurn 0 _))
    · rename_i ha
      have ht : taken lock s = true := by simpa [taken,hl] using ha
      exact threadSleep_handsOver (s := { s with frames := .acquire lock enabled::s.frames }) _
        (h.congr rfl rfl rfl fun _ => rfl) (hf ht)

theorem threadWait_handsOver (tid : Tid) (h : Queues s) (hf : waitsFor tid s → Free s) :
    HandsOver s (threadWait tid s) := by
  simp only [threadWait]
  split
  · exact .inl (return_sameTurn _ s)
  split
  · exact .inl ⟨rfl,rfl⟩
  split
  · exact .inl (return_sameTurn _ s)
  · rename_i h₁ h₂ h₃
    rw [not_or] at h₁
    have hw : waitsFor tid s := ⟨not_lt.mp h₁.1,not_le.mp h₂,h₁.2,h₃⟩
    exact threadSleep_handsOver (s := { s with
      interrupts := false, frames := .wait tid s.interrupts::s.frames }) _
      (h.congr rfl rfl rfl fun _ => rfl) (hf hw)

/-- `thread_exit` makes its waiters ready and hands control to the first ready thread. -/
theorem threadExit_turn (marked : Bool) (h : Queues s) :
    ∃ v, TurnOf a s (threadExit marked s) v := by
  have hw : ∀ t ∈ s.waitQueues (.tWait s.currentThreadId), t ≠ -1 :=
    fun t ht => (h.waiting _ t ht).ne
  cases hn : s.readyQueue ++ s.waitQueues (.tWait s.currentThreadId) with
  | nil =>
    have hr : (exited marked s).readyQueue = [] := hn
    have hnil : s.readyQueue = [] := (List.append_eq_nil_iff.mp hn).1
    refine ⟨_,SameTurn.turnOf ?_⟩
    simp only [threadExit_eq hw,removeNextReadyThread,hr,if_true]
    exact ⟨hr.trans hnil.symm,rfl⟩
  | cons next rest =>
    have hne : next ≠ -1 := by
      have hm : next ∈ s.readyQueue ++ s.waitQueues (.tWait s.currentThreadId) := by simp [hn]
      exact (List.mem_append.mp hm).elim (fun hm => (h.ready next hm).ne) (hw next)
    rw [threadExit_next hw hn hne]
    exact ⟨_,.head (m := []) hn (List.append_nil _).symm rfl⟩

/-! ### The calls -/

/-- The threads that a wake-up makes ready go to the end of the ready queue. -/
theorem threadWakeup_joins (waker : Waker) (queue : WaitQueue) (all : ℤ) (h : Queues s) :
    ∃ l, (threadWakeup waker queue all s).2.readyQueue = s.readyQueue ++ l ∧
      (threadWakeup waker queue all s).2.currentThreadId = s.currentThreadId := by
  obtain ⟨l,_,_,_,_,_,hs⟩ := threadWakeup_eq waker queue all s fun t ht => (h.waiting _ t ht).ne
  rw [hs]
  exact ⟨l,rfl,rfl⟩

theorem return_turn {u : State} {l : List Tid} (v : ℤ) (hr : u.readyQueue = s.readyQueue ++ l)
    (hc : u.currentThreadId = s.currentThreadId) : ∃ w, TurnOf a s (return_ v u) w :=
  HandsOver.turnOf (.inl (return_sameTurn v u)) hr hc

/-- `lock_release` makes all threads that wait for the lock ready. -/
theorem releaseLock_joins (lock : ℕ) (h : Queues s) : ownsLock lock s = true →
    releaseLock lock s = { s with
      readyQueue := s.readyQueue ++ s.waitQueues (.waitOnLock lock)
      waitQueues := fun q => if q = .waitOnLock lock then [] else s.waitQueues q
      locks := (releaseLock lock s).locks
      history := (releaseLock lock s).history } := by
  intro ho
  obtain ⟨l,rest,hq,hr,-,-,hs⟩ := threadWakeup_eq .lockRelease (.waitOnLock lock) 1
    (s.record (.passed s.self lock)) fun t ht => (h.waiting _ t ht).ne
  obtain rfl := hr rfl
  have hl : s.waitQueues (.waitOnLock lock) = l := by simpa [State.record] using hq
  simp only [releaseLock,ho,if_true]
  rw [hs]
  simp [State.setLock,State.record,hl]

/-- The released waiters are ready before the caller of `cv_wait` sleeps. -/
theorem releaseLock_queues (lock : ℕ) (h : Queues s) (ho : ownsLock lock s = true) :
    Queues (releaseLock lock s) := by
  rw [releaseLock_joins lock h ho]
  refine ⟨h.current,fun x hx => ?_,fun q x hx => ?_⟩
  · rcases List.mem_append.mp hx with hx | hx
    · exact ⟨(h.ready x hx).nonneg,(h.ready x hx).lt,(h.ready x hx).ready,(h.ready x hx).ne_current⟩
    · have hr := h.waiting _ x hx
      exact ⟨hr.nonneg,hr.lt,hr.ready,hr.ne_current⟩
  · have hq : x ∈ s.waitQueues q := by
      by_cases hl : q = .waitOnLock lock
      · simp [hl] at hx
      · simpa [hl] using hx
    have hr := h.waiting q x hq
    exact ⟨hr.nonneg,hr.lt,hr.ready,hr.ne_current⟩

theorem withQueue_turn (queue : WaitQueue) {f : State → State} (hf : ∃ v, TurnOf a s (f s) v) :
    ∃ v, TurnOf a s (withQueue queue f s) v := by
  simp only [withQueue]
  split
  · exact ⟨_,SameTurn.turnOf ⟨rfl,rfl⟩⟩
  · exact hf

theorem cvWait_turn (cv lock : ℕ) (h : Queues s) (hf : ownsLock lock s = true →
      s.readyQueue ≠ [] ∨ s.waitQueues (.waitOnLock lock) ≠ [] →
      s.tcb.killOnNextRun = false ∧ s.tcb.setcontextCalled = false) :
    ∃ v, TurnOf a s (cvWait cv lock s) v := by
  refine withQueue_turn _ ?_
  simp only [withLock]
  split
  · split
    · rename_i ho
      let u : State := { s.record (.passed s.self lock) with
        interrupts := false, frames := .cvSlept cv lock s.interrupts::s.frames }
      have hu : Queues u := h.congr rfl rfl rfl fun _ => rfl
      have he := releaseLock_joins lock hu ho
      have hr : (releaseLock lock u).readyQueue = s.readyQueue ++ s.waitQueues (.waitOnLock lock) := by
        rw [he]; rfl
      have hc : (releaseLock lock u).currentThreadId = s.currentThreadId := by rw [he]; rfl
      have hfree : Free (releaseLock lock u) := by
        intro hne
        have ht : (releaseLock lock u).tcb = s.tcb := by rw [he]; rfl
        rw [ht]
        refine hf ho ?_
        rw [hr] at hne
        by_contra hn
        rw [not_or,not_not,not_not] at hn
        exact hne (by rw [hn.1,hn.2]; rfl)
      exact (threadSleep_handsOver _ (releaseLock_queues lock hu ho) hfree).turnOf hr hc
    · exact (HandsOver.turn (.inl (return_sameTurn 0 s)))
  · exact ⟨_,SameTurn.turnOf ⟨rfl,rfl⟩⟩

theorem lockRelease_turn (lock : ℕ) (h : Queues s) : ∃ v, TurnOf a s (lockRelease lock s) v := by
  simp only [lockRelease,withLock]
  split
  · by_cases ho : ownsLock lock s = true
    · have he := releaseLock_joins lock h ho
      exact return_turn 0 (l := s.waitQueues (.waitOnLock lock)) (by rw [he]) (by rw [he])
    · simp only [releaseLock,ho]
      exact HandsOver.turn (.inl (return_sameTurn 0 s))
  · exact ⟨_,SameTurn.turnOf ⟨rfl,rfl⟩⟩

theorem cvWakeup_turn (waker : Waker) (all : ℤ) (cv lock : ℕ) (h : Queues s) :
    ∃ v, TurnOf a s (cvWakeup waker all cv lock s) v := by
  refine withQueue_turn _ ?_
  simp only [withLock]
  split
  · split
    · have hu : Queues (s.record (.passed s.self lock)) := h.congr rfl rfl rfl fun _ => rfl
      obtain ⟨l,hr,hc⟩ := threadWakeup_joins waker (.waitOnCv cv) all hu
      exact return_turn 0 hr hc
    · exact HandsOver.turn (.inl (return_sameTurn 0 s))
  · exact ⟨_,SameTurn.turnOf ⟨rfl,rfl⟩⟩

theorem threadCreate_turn (stack : Bool) : ∃ v, TurnOf a s (threadCreate stack s) v := by
  simp only [threadCreate,removeFromHead]
  cases ha : s.availableThreadIds with
  | nil => 
    simp only [State.modify,ha,if_true]
    exact return_turn (l := []) _ (by simp) rfl
  | cons id rest =>
    simp only [State.modify,ha]
    split
    · exact return_turn (l := []) _ (by simp) rfl
    split
    · exact return_turn (l := []) _ (by simp) rfl
    · exact return_turn (l := [id]) _ rfl rfl

theorem threadKill_sameTurn (tid : Tid) (s : State) : SameTurn s (threadKill tid s) := by
  simp only [threadKill]
  split
  · exact return_sameTurn _ s
  split
  · exact return_sameTurn _ s
  split
  · exact ⟨rfl,rfl⟩
  split
  · exact return_sameTurn _ s
  · exact ⟨rfl,rfl⟩

theorem withQueue_sameTurn (queue : WaitQueue) {f : State → State} (hf : SameTurn s (f s)) :
    SameTurn s (withQueue queue f s) := by
  simp only [withQueue]
  split
  · exact ⟨rfl,rfl⟩
  · exact hf

theorem waitQueueDestroy_sameTurn (queue : WaitQueue) (s : State) :
    SameTurn s (waitQueueDestroy queue s) := withQueue_sameTurn queue ⟨rfl,rfl⟩

theorem lockDestroy_sameTurn (lock : ℕ) (s : State) : SameTurn s (lockDestroy lock s) := by
  simp only [lockDestroy]
  split
  · exact ⟨rfl,rfl⟩
  split
  · exact ⟨rfl,rfl⟩
  · exact waitQueueDestroy_sameTurn _ s

theorem popHeadThreadWait_sameTurn (queue : WaitQueue) (s : State) :
    SameTurn s (popHeadThreadWait queue s).2 := by
  simp only [popHeadThreadWait]
  split <;> exact ⟨rfl,rfl⟩

theorem destroyLoop_sameTurn (queue : WaitQueue) (s : State) : SameTurn s (destroyLoop queue s) := by
  refine withQueue_sameTurn queue ?_
  dsimp only
  split
  · exact popHeadThreadWait_sameTurn queue s
  · exact popHeadThreadWait_sameTurn queue s

theorem destroyEnd_sameTurn (queue : WaitQueue) (s : State) : SameTurn s (destroyEnd queue s) := by
  refine withQueue_sameTurn queue ?_
  cases queue <;> exact SameTurn.trans ⟨rfl,rfl⟩ (return_sameTurn 0 _)

/-- `thread_yield` runs the first ready thread, or the one that is named. -/
theorem threadYield_turn {w : Tid} (h : Queues s)
    (hf : (if w = threadAny then s.readyQueue ≠ [] else w ∈ s.readyQueue) →
      s.tcb.killOnNextRun = false ∧ s.tcb.setcontextCalled = false) :
    ∃ v, TurnOf (.call (.threadYield w)) s (threadYield w s) v := by
  by_cases hw : w = threadAny
  · subst hw
    exact (threadYield_any_handsOver h fun hr => hf (by simpa using hr)).turn
  · rcases threadYield_cases w s with ⟨v,hv⟩ | ⟨x,hx,hwx,hv⟩
    · exact HandsOver.turn (.inl (hv ▸ return_sameTurn v s))
    · obtain rfl := hwx.resolve_left hw
      obtain ⟨hk,hc⟩ := hf (by rw [if_neg hw]; exact hx)
      obtain ⟨⟨m,hm⟩,hcur⟩ :=
        yieldTo_runs s.interrupts (h.ready w hx).ne_current hk hc
      rw [hv]
      refine ⟨.named w,⟨hm ▸ .named m hx,fun h => (by cases h),fun _ h => (by cases h),?_⟩⟩
      intro y hy
      cases hy
      exact ⟨hcur,by simpa [names] using hw⟩

theorem doCall_turn (c : Call) (h : Queues s) (hl : Clean .lose s (.call c)) :
    ∃ v, TurnOf (.call c) s (doCall c s) v := by
  cases c with
  | threadId => exact HandsOver.turn (.inl (return_sameTurn _ s))
  | threadCreate stack => exact threadCreate_turn stack
  | threadYield w => exact threadYield_turn h hl
  | threadExit => exact threadExit_turn false h
  | threadKill tid => exact ⟨_,(threadKill_sameTurn tid s).turnOf⟩
  | threadSleep q =>
    cases q with
    | none => exact HandsOver.turn (.inl (return_sameTurn _ s))
    | some n =>
      exact withQueue_turn _ (threadSleep_handsOver (some (.created n)) h fun hr => hl ⟨rfl,hr⟩).turn
  | threadWakeup q all =>
    cases q with
    | none => exact HandsOver.turn (.inl (return_sameTurn 0 s))
    | some n =>
      simp only [doCall]
      refine withQueue_turn _ ?_
      obtain ⟨l,hr,hc⟩ := threadWakeup_joins .threadWakeup (.created n) all h
      exact return_turn _ hr hc
  | threadWait tid => exact (threadWait_handsOver tid h fun hw hr => hl ⟨hw,hr⟩).turn
  | lockAcquire lock =>
    refine HandsOver.turn ?_
    exact acquireLoop_handsOver (s := { s with interrupts := false }) lock s.interrupts
      (h.congr rfl rfl rfl fun _ => rfl) fun ht hr => hl ⟨ht,hr⟩
  | lockRelease lock => exact lockRelease_turn lock h
  | lockDestroy lock => exact ⟨_,(lockDestroy_sameTurn lock s).turnOf⟩
  | cvDestroy cv => exact ⟨_,(waitQueueDestroy_sameTurn _ s).turnOf⟩
  | waitQueueDestroy n =>
    cases n with
    | none => exact ⟨_,SameTurn.turnOf ⟨rfl,rfl⟩⟩
    | some n => exact ⟨_,(waitQueueDestroy_sameTurn _ s).turnOf⟩
  | cvWait cv lock => exact cvWait_turn cv lock h fun ho hr => hl ⟨ho,hr⟩
  | cvSignal cv lock => exact cvWakeup_turn .cvSignal 0 cv lock h
  | cvBroadcast cv lock => exact cvWakeup_turn .cvBroadcast 1 cv lock h

/-! ### Steps -/

/-- A thread at the return of `getcontext` has been switched to. -/
theorem Here.called {n o tk : Tid} {e : Bool} {k : List Frame} (h : Here s)
    (hf : s.frames = .yielded n o tk e::k) : s.tcb.setcontextCalled = true := by
  cases h with
  | entry hf' => simp [hf'] at hf
  | point hp =>
    rw [hf] at hp
    cases hp with
    | own hb => cases hb
  | midway hm => rw [hf] at hm; cases hm
  | yielded _ _ _ _ _ _ _ _ hc => exact hc

theorem afterGetcontext_turn {n o tk : Tid} {e : Bool} {k : List Frame} (h : Queues s)
    (hc : s.tcb.setcontextCalled = true) :
    ∃ v, TurnOf a s (afterGetcontext n o tk e { s with frames := k }) v := by
  obtain ⟨b,hb⟩ := freeTCBStacks_TCBs { s with frames := k } s.currentThreadId
  have hset : (freeTCBStacks { s with frames := k }).tcb.setcontextCalled = true :=
    (congrArg Thread.setcontextCalled hb).trans hc
  have hq : Queues (freeTCBStacks { s with frames := k }) := h.congr rfl rfl rfl fun x => by
    obtain ⟨b,hb⟩ := freeTCBStacks_TCBs { s with frames := k } x
    rw [hb]
  simp only [afterGetcontext]
  split
  · obtain ⟨v,hv⟩ := threadExit_turn (a := a) true hq
    exact ⟨v,hv.turn,hv.nobody,hv.first,hv.named⟩
  · rw [if_neg (by simp [hset])]
    exact ⟨_,SameTurn.turnOf (SameTurn.trans ⟨rfl,rfl⟩ (return_sameTurn tk _))⟩

theorem resume_turn (h : Queues s) (hh : Here s) (hl : Clean .lose s .run)
    (hst : resume s = some s') : ∃ v, TurnOf a s s' v := by
  have round : ∀ (lock : ℕ) (e e' : Bool) (k : List Frame),
      (taken lock s = true → s.readyQueue ≠ [] → takesReady s .run) →
      ∃ v, TurnOf a s (acquireLoop lock e { s with interrupts := e', frames := k }) v := by
    intro lock e e' k ht
    refine HandsOver.turn ?_
    exact acquireLoop_handsOver (s := { s with interrupts := e', frames := k }) lock e
      (h.congr rfl rfl rfl fun _ => rfl) fun ha hr => hl (ht ha hr)
  unfold resume at hst
  split at hst
  all_goals first | cases hst | skip
  · exact ⟨_,SameTurn.turnOf ⟨rfl,rfl⟩⟩
  · exact ⟨_,SameTurn.turnOf ⟨rfl,rfl⟩⟩
  · split at hst
    · cases hst
      exact threadExit_turn true h
    · cases hst
      exact ⟨_,SameTurn.turnOf ⟨rfl,rfl⟩⟩
  · exact threadExit_turn false h
  · exact afterGetcontext_turn h (Here.called hh ‹_›)
  · rename_i lock e k hf
    exact round lock e s.interrupts k fun ha hr => by simpa [takesReady,hf] using ⟨ha,hr⟩
  · rename_i cv lock e k hf
    exact round lock _ false _ fun ha hr => by simpa [takesReady,hf] using ⟨ha,hr⟩
  · exact ⟨_,SameTurn.turnOf (SameTurn.trans ⟨rfl,rfl⟩ (return_sameTurn _ _))⟩
  · exact ⟨_,SameTurn.turnOf (destroyLoop_sameTurn _ _)⟩
  · exact ⟨_,SameTurn.turnOf (destroyEnd_sameTurn _ _)⟩

/-- A step that loses no ready thread is a turn of the ready queue. -/
theorem step_turn (h : Reachable anyStep s) (hl : Clean .lose s a) (hst : step s a = some s') :
    ∃ v, TurnOf a s s' v := by
  have hrun := running_of_step hst
  obtain ⟨hs,hc⟩ := sound_control_of_reachable h hrun
  have hq : Queues s := .of_inv hs.toInv
  simp only [step] at hst
  rw [if_neg (not_not.mpr hrun)] at hst
  cases a with
  | run => exact resume_turn hq hc.here hl hst
  | timer =>
    simp only at hst
    split at hst
    · cases hst
      have hq' : Queues { s with interrupts := false, frames := .handler::s.frames } :=
        hq.congr rfl rfl rfl fun _ => rfl
      exact (threadYield_any_handsOver hq' hl).turnOf (l := []) (List.append_nil _).symm rfl
    · cases hst
  | call c =>
    simp only at hst
    split at hst
    · rename_i k hf
      cases hst
      have hq' : Queues { s.record (.call s.self c s.interrupts) with frames := .call c::.own::k } :=
        hq.congr rfl rfl rfl fun _ => rfl
      obtain ⟨v,hv⟩ := doCall_turn c hq' (by cases c <;> exact hl)
      exact ⟨v,hv.turn,hv.nobody,hv.first,hv.named⟩
    · cases hst
  | compute =>
    simp only at hst
    split at hst
    · cases hst
      exact ⟨_,SameTurn.turnOf ⟨rfl,rfl⟩⟩
    · cases hst
  | interruptsSet e =>
    simp only at hst
    split at hst
    · cases hst
      exact ⟨_,SameTurn.turnOf ⟨rfl,rfl⟩⟩
    · cases hst
  | finish =>
    simp only at hst
    split at hst
    · cases hst
      exact ⟨_,SameTurn.turnOf ⟨rfl,rfl⟩⟩
    · cases hst

/-- A timer interrupt takes the running thread off, when another one is ready. -/
theorem timer_switches (h : Reachable anyStep s) (hl : Clean .lose s .timer) {t : Tid}
    (ht : t ∈ s.readyQueue) (hst : step s .timer = some s') :
    s'.currentThreadId ≠ s.currentThreadId := by
  have hrun := running_of_step hst
  have hq : Queues s := .of_inv (sound_control_of_reachable h hrun).1.toInv
  simp only [step] at hst
  rw [if_neg (not_not.mpr hrun)] at hst
  split at hst
  · cases hst
    obtain ⟨x,rest,hr⟩ := List.exists_cons_of_ne_nil (List.ne_nil_of_mem ht)
    have hx := hq.ready x (by simp [hr])
    obtain ⟨hk,hc⟩ := hl (List.ne_nil_of_mem ht)
    rw [threadYield_any (s := { s with interrupts := false, frames := .handler::s.frames })
      hq.current hx.ne hr]
    have hcur := (yieldTo_runs (s := { s with interrupts := false, frames := .handler::s.frames })
      false hx.ne_current hk hc).2
    exact fun he => hx.ne_current (hcur.symm.trans he)
  · cases hst

/-! ### Runs -/

/-- The step hands control to a thread that nobody named. -/
def passesOn (a : Action) (s s' : State) : Bool :=
  s'.currentThreadId != s.currentThreadId && !names a

def handovers : List Action → State → ℕ
  | [], _ => 0
  | a::as, s => match step s a with
    | none => 0
    | some s' => (if passesOn a s s' then 1 else 0)+handovers as s'

theorem TurnOf.waits {v : Served Tid} {t : Tid} (h : TurnOf a s s' v) (ht : t ∈ s.readyQueue)
    (hn : s'.currentThreadId ≠ t) : t ∈ s'.readyQueue ∧
      (inFront t s'.readyQueue).Sublist (inFront t s.readyQueue) ∧
      (inFront t s'.readyQueue).length+(if passesOn a s s' then 1 else 0) ≤
        (inFront t s.readyQueue).length := by
  obtain ⟨hm,hs,hlen⟩ := h.turn.waits ht (fun hv => hn (h.first t hv)) fun hv => hn (h.named t hv).1
  refine ⟨hm,hs,le_trans (Nat.add_le_add_left ?_ _) hlen⟩
  cases v with
  | nobody => simp [passesOn,h.nobody rfl,Served.isFirst]
  | first x => split <;> simp [Served.isFirst]
  | named x => simp [passesOn,(h.named x rfl).2,Served.isFirst]

/-- A thread that is ready and does not run stays ready while no ready thread is lost. Nobody who
becomes ready later gets in front of it, and the threads in front of it grow fewer with every switch
that nobody directed, so with every timer interrupt. -/
theorem ready_thread_runs_in_turn {t : Tid} {as : List Action} (h : Reachable anyStep s)
    (ht : t ∈ s.readyQueue) (hst : exec step as s = some s') (hl : Allowed step (Clean .lose) as s)
    (hn : Along step (fun u => u.currentThreadId ≠ t) as s) :
    t ∈ s'.readyQueue ∧ (inFront t s'.readyQueue).Sublist (inFront t s.readyQueue) ∧
      (inFront t s'.readyQueue).length+handovers as s ≤ (inFront t s.readyQueue).length ∧
      as.count .timer ≤ handovers as s := by
  induction as generalizing s with
  | nil =>
    obtain rfl : s = s' := by simpa [exec] using hst
    exact ⟨ht,List.Sublist.refl _,by simp [handovers],by simp [handovers]⟩
  | cons a as ih =>
    obtain ⟨u,hu,hrest⟩ := Option.bind_eq_some_iff.mp hst
    have hnu : Along step (fun u => u.currentThreadId ≠ t) as u := hn.2 u hu
    obtain ⟨v,hv⟩ := step_turn h hl.1 hu
    obtain ⟨hm,hs,hlen⟩ := hv.waits ht hnu.here
    obtain ⟨hm',hs',hlen',hc⟩ := ih (.step a h trivial hu) hm hrest (hl.2 u hu) hnu
    have hh : handovers (a::as) s = (if passesOn a s u then 1 else 0)+handovers as u := by
      simp [handovers,hu]
    rw [hh]
    refine ⟨hm',hs'.trans hs,by omega,?_⟩
    by_cases ha : a = .timer
    · subst ha
      have hp : passesOn .timer s u = true := by
        simp [passesOn,names,timer_switches h hl.1 ht hu]
      rw [List.count_cons_self,hp,if_pos rfl]
      omega
    · rw [List.count_cons_of_ne ha]
      omega

/-- The main thread has created the threads 1 and 2. -/
def twoCreated : State :=
  final step [.call (.threadCreate true),.call (.threadCreate true)] threadInit (by decide +kernel)

/-- Thread 2 has one thread in front of it, and after one timer interrupt none. -/
theorem twoCreated_in_turn : twoCreated.readyQueue = [1,2] ∧
    ∃ s', step twoCreated .timer = some s' ∧ (2 : Tid) ∈ s'.readyQueue ∧
      (inFront (2 : Tid) s'.readyQueue).length+1 ≤ 1 := by
  have hr : Reachable anyStep twoCreated := reachable_final .init fun _ _ _ => trivial
  have hq : twoCreated.readyQueue = [1,2] := by decide +kernel
  obtain ⟨s',hst⟩ := Option.isSome_iff_exists.mp
    (show (step twoCreated .timer).isSome = true by decide +kernel)
  have hc : s'.currentThreadId ≠ 2 := by
    have : (step twoCreated .timer).all (fun u => u.currentThreadId != 2) = true := by decide +kernel
    simpa [hst] using this
  have hfree : twoCreated.tcb.killOnNextRun = false ∧ twoCreated.tcb.setcontextCalled = false := by
    decide +kernel
  have hexec : exec step [.timer] twoCreated = some s' := (exec_singleton _ _).trans hst
  have hone := ready_thread_runs_in_turn (t := 2) hr (by simp [hq]) hexec ⟨fun _ => hfree,fun _ _ => trivial⟩
    ⟨by decide +kernel,fun u hu => by
      obtain rfl : u = s' := Option.some.inj (hu.symm.trans hst)
      exact hc⟩
  obtain ⟨hm,-,hlen,hcount⟩ := hone
  have hfront : (inFront (2 : Tid) twoCreated.readyQueue).length = 1 := by rw [hq]; decide
  have htimer : [Action.timer].count .timer = 1 := by decide
  exact ⟨hq,s',hst,hm,by omega⟩

end ReadyOrder
end OsLabs

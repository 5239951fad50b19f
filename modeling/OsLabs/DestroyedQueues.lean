import OsLabs.SchedulerRun

/-!
# Destroyed queues

`wait_queue_destroy` frees a queue that other threads may still use. Nobody stands in a queue
after that while the process runs: a thread that goes to sleep on it leaves the model.
-/

namespace OsLabs
namespace DestroyedQueues

open ThreadModel SchedulerRefinement SchedulerRun Transition

/-- Nobody stands in a destroyed queue. -/
def Emptied (s : State) : Prop :=
  s.status = .running → ∀ queue, s.freed queue = true → s.waitQueues queue = []

/-- What a function that destroys no queue and puts nobody into an empty one leaves as it is. -/
structure Keeps (s s' : State) : Prop where
  running : s'.status = .running → s.status = .running
  freed : s'.freed = s.freed
  waits : ∀ queue, s.waitQueues queue = [] → s'.waitQueues queue = []

variable {s s' : State}

theorem Keeps.emptied (hk : Keeps s s') (h : Emptied s) : Emptied s' := fun hr queue hq =>
  hk.waits queue (h (hk.running hr) queue (hk.freed ▸ hq))

theorem emptied_of_status (h : s.status ≠ .running) : Emptied s := fun hr => absurd hr h

theorem returnTo_emptied : ∀ (k : List Frame) (v : ℤ) (s : State), Emptied s → Emptied (returnTo v k s)
  | [], _, _, h => h
  | f::k, v, s, h => by
    cases f with
    | sleep e => exact returnTo_emptied k v { s with interrupts := e } h
    | wait tid e => exact returnTo_emptied k tid { s with interrupts := e } h
    | cvReacquired cv l e => exact returnTo_emptied k v { s with interrupts := e } h
    | _ => exact h

theorem return_emptied (v : ℤ) (h : Emptied s) : Emptied (return_ v s) := returnTo_emptied s.frames v s h

/-! ### Wake-up and switch -/

theorem wakeupLoop_keeps (waker : Waker) (queue : WaitQueue) : ∀ (l : List Tid) (n : ℤ) (s : State),
    (wakeupLoop waker queue l n s).2.status = s.status ∧ (wakeupLoop waker queue l n s).2.freed = s.freed ∧
      ∀ q, q ≠ queue → (wakeupLoop waker queue l n s).2.waitQueues q = s.waitQueues q
  | [], _, _ => ⟨rfl,rfl,fun _ hq => if_neg hq⟩
  | t::l, n, s => by
    simp only [wakeupLoop]
    split
    · exact ⟨rfl,rfl,fun _ hq => if_neg hq⟩
    · obtain ⟨hst,hf,hw⟩ := wakeupLoop_keeps waker queue l (n+1)
        (addToTail t ((s.setQueue queue l).record (.woken (s.inst t) queue waker)))
      exact ⟨hst,hf,fun q hq => (hw q hq).trans (if_neg hq)⟩

theorem threadWakeup_keeps (waker : Waker) (queue : WaitQueue) (all : ℤ) (s : State) :
    Keeps s (threadWakeup waker queue all s).2 := by
  cases hq : s.waitQueues queue with
  | nil =>
    simp only [threadWakeup,hq]
    exact ⟨id,rfl,fun _ hw => hw⟩
  | cons t rest =>
    have hne : ∀ q, s.waitQueues q = [] → q ≠ queue := by
      rintro q hw rfl
      simp [hq] at hw
    let s₁ := addToTail t ((s.setQueue queue rest).record (.woken (s.inst t) queue waker))
    have first : Keeps s s₁ := ⟨id,rfl,fun q hw => (if_neg (hne q hw)).trans hw⟩
    simp only [threadWakeup,hq]
    split
    · split
      · exact first
      · obtain ⟨hst,hf,hloop⟩ := wakeupLoop_keeps waker queue rest 1 s₁
        exact ⟨fun hr => hst ▸ hr,hf,fun q hw => (hloop q (hne q hw)).trans (first.waits q hw)⟩
    · exact first

theorem removeNextReadyThread_emptied (h : Emptied s) : Emptied (removeNextReadyThread s).2 := by
  simp only [removeNextReadyThread]
  split <;> exact h

theorem threadExit_emptied (marked : Bool) (h : Emptied s) : Emptied (threadExit marked s) := by
  simp only [threadExit]
  split
  · exact emptied_of_status (by simp)
  · refine removeNextReadyThread_emptied (s := addToHeadId _ _) ?_
    exact (threadWakeup_keeps .threadExit (.tWait s.currentThreadId) 1 _).emptied h

/-- A thread that has asked for a destroyed queue leaves the model when it goes to sleep. -/
theorem yieldingBlock_emptied (x o : Tid) (h : Emptied s) : Emptied (yieldingBlock x o s) := by
  simp only [yieldingBlock]
  split
  · rename_i queue _
    intro hr q hf
    have hrun : (if s.freed queue = true then .dangling else s.status) = Status.running := hr
    have hqueue : ¬ s.freed queue = true := by
      intro hq
      rw [if_pos hq] at hrun
      cases hrun
    have hne : q ≠ queue := by
      rintro rfl
      exact hqueue hf
    rw [if_neg hqueue] at hrun
    exact (if_neg hne).trans (h hrun q hf)
  · exact h

theorem afterGetcontext_emptied (x o v : Tid) (enabled : Bool) (h : Emptied s) :
    Emptied (afterGetcontext x o v enabled s) := by
  simp only [afterGetcontext]
  split
  · exact threadExit_emptied (s := freeTCBStacks s) true h
  split
  · exact yieldingBlock_emptied (s := freeTCBStacks s) x o h
  · exact return_emptied v h

theorem threadYield_emptied (w : Tid) (h : Emptied s) : Emptied (threadYield w s) := by
  rcases threadYield_cases w s with ⟨v,hv⟩ | ⟨x,-,-,hv⟩
  · exact hv ▸ return_emptied v h
  · exact hv ▸ afterGetcontext_emptied x _ x _ h

theorem threadSleep_emptied (queue : Option WaitQueue) (h : Emptied s) : Emptied (threadSleep queue s) := by
  cases queue with
  | none => exact return_emptied _ h
  | some queue =>
    simp only [threadSleep]
    split
    · exact return_emptied _ h
    · exact threadYield_emptied _ h

/-! ### Calls -/

theorem withLock_emptied (lock : ℕ) {f : State → State} (hf : Emptied (f s)) :
    Emptied (withLock lock f s) := by
  simp only [withLock]
  split
  · exact hf
  · exact emptied_of_status (by simp)

theorem withQueue_emptied (queue : WaitQueue) {f : State → State} (hf : Emptied (f s)) :
    Emptied (withQueue queue f s) := by
  simp only [withQueue]
  split
  · exact emptied_of_status (by simp)
  · exact hf

theorem removeFromHead_emptied (h : Emptied s) : Emptied (removeFromHead s).2 := by
  simp only [removeFromHead]
  split <;> exact h

theorem threadCreate_emptied (stack : Bool) (h : Emptied s) : Emptied (threadCreate stack s) := by
  let s₁ := s.modify s.currentThreadId fun t => { t with mycontext := ⟨s.frames,false⟩ }
  have hid : Emptied (removeFromHead s₁).2 := removeFromHead_emptied (s := s₁) h
  simp only [threadCreate]
  split
  · exact return_emptied _ hid
  split
  · exact return_emptied _ hid
  · exact return_emptied _ hid

theorem threadKill_emptied (tid : Tid) (h : Emptied s) : Emptied (threadKill tid s) := by
  simp only [threadKill]
  split
  · exact return_emptied _ h
  split
  · exact return_emptied _ h
  split
  · exact emptied_of_status (by simp)
  split
  · exact return_emptied _ h
  · exact h

theorem threadWait_emptied (tid : Tid) (h : Emptied s) : Emptied (threadWait tid s) := by
  simp only [threadWait]
  split
  · exact return_emptied _ h
  split
  · exact emptied_of_status (by simp)
  split
  · exact return_emptied _ h
  · exact threadSleep_emptied _ h

theorem acquireLoop_emptied (lock : ℕ) (enabled : Bool) (h : Emptied s) :
    Emptied (acquireLoop lock enabled s) := by
  simp only [acquireLoop]
  split
  · exact emptied_of_status (by simp)
  split
  · exact return_emptied 0 h
  · exact threadSleep_emptied _ h

theorem releaseLock_emptied (lock : ℕ) (h : Emptied s) : Emptied (releaseLock lock s) := by
  simp only [releaseLock]
  split
  · exact (threadWakeup_keeps .lockRelease (.waitOnLock lock) 1 (s.record (.passed s.self lock))).emptied h
  · exact h

theorem cvWait_emptied (cv lock : ℕ) (h : Emptied s) : Emptied (cvWait cv lock s) := by
  refine withQueue_emptied _ (withLock_emptied _ ?_)
  split
  · exact threadSleep_emptied _ (releaseLock_emptied lock h)
  · exact return_emptied 0 h

theorem cvWakeup_emptied (waker : Waker) (all : ℤ) (cv lock : ℕ) (h : Emptied s) :
    Emptied (cvWakeup waker all cv lock s) := by
  refine withQueue_emptied _ (withLock_emptied _ ?_)
  split
  · exact return_emptied 0 ((threadWakeup_keeps waker _ all (s.record (.passed s.self lock))).emptied h)
  · exact return_emptied 0 h

theorem lockDestroy_emptied (lock : ℕ) (h : Emptied s) : Emptied (lockDestroy lock s) := by
  simp only [lockDestroy]
  split
  · exact emptied_of_status (by simp)
  split
  · exact emptied_of_status (by simp)
  · exact withQueue_emptied _ h

theorem doCall_emptied (c : Call) (h : Emptied s) : Emptied (doCall c s) := by
  cases c with
  | threadId => exact return_emptied _ h
  | threadCreate stack => exact threadCreate_emptied stack h
  | threadYield w => exact threadYield_emptied w h
  | threadExit => exact threadExit_emptied false h
  | threadKill tid => exact threadKill_emptied tid h
  | threadSleep queue =>
    cases queue with
    | none => exact threadSleep_emptied none h
    | some n => exact withQueue_emptied _ (threadSleep_emptied _ h)
  | threadWakeup queue all =>
    cases queue with
    | none => exact return_emptied 0 h
    | some n =>
      simp only [doCall]
      exact withQueue_emptied _ (return_emptied _ ((threadWakeup_keeps _ _ all s).emptied h))
  | threadWait tid => exact threadWait_emptied tid h
  | lockAcquire lock => exact acquireLoop_emptied (s := { s with interrupts := false }) lock _ h
  | lockRelease lock => exact withLock_emptied lock (return_emptied 0 (releaseLock_emptied lock h))
  | lockDestroy lock => exact lockDestroy_emptied lock h
  | cvDestroy cv => exact withQueue_emptied _ h
  | waitQueueDestroy queue =>
    cases queue with
    | none => exact emptied_of_status (by simp [doCall])
    | some n => exact withQueue_emptied _ h
  | cvWait cv lock => exact cvWait_emptied cv lock h
  | cvSignal cv lock => exact cvWakeup_emptied _ _ cv lock h
  | cvBroadcast cv lock => exact cvWakeup_emptied _ _ cv lock h

/-! ### Destruction -/

theorem destroyLoop_emptied (queue : WaitQueue) (h : Emptied s) : Emptied (destroyLoop queue s) := by
  refine withQueue_emptied queue ?_
  cases hq : s.waitQueues queue with
  | nil =>
    simp only [popHeadThreadWait,hq]
    exact h
  | cons t rest =>
    have hk : Keeps s (s.setQueue queue rest) := by
      refine ⟨id,rfl,fun q hw => (if_neg ?_).trans hw⟩
      rintro rfl
      simp [hq] at hw
    simp only [popHeadThreadWait,hq]
    split <;> exact hk.emptied h

/-- The queue that is freed has become unreachable with everything in it. -/
theorem freeWaitQueue_emptied (queue : WaitQueue) (h : Emptied s) : Emptied (freeWaitQueue queue s) := by
  intro hr q hf
  by_cases hq : q = queue
  · exact if_pos hq
  · have hfreed : s.freed q = true := by simpa [freeWaitQueue,hq] using hf
    exact (if_neg hq).trans (h hr q hfreed)

theorem destroyEnd_emptied (queue : WaitQueue) (h : Emptied s) : Emptied (destroyEnd queue s) := by
  refine withQueue_emptied queue ?_
  cases queue <;> exact return_emptied 0 (freeWaitQueue_emptied _ h)

/-! ### Steps and runs -/

theorem resume_emptied (h : Emptied s) (hst : resume s = some s') : Emptied s' := by
  unfold resume at hst
  split at hst
  all_goals first | cases hst | skip
  · exact h
  · exact h
  · split at hst
    · cases hst
      exact threadExit_emptied true h
    · cases hst
      exact h
  · exact threadExit_emptied false h
  · exact afterGetcontext_emptied _ _ _ _ h
  · exact acquireLoop_emptied _ _ h
  · exact acquireLoop_emptied _ _ h
  · exact return_emptied _ h
  · exact destroyLoop_emptied _ h
  · exact destroyEnd_emptied _ h

theorem step_emptied {a : Action} (h : Emptied s) (hst : step s a = some s') : Emptied s' := by
  simp only [step] at hst
  split at hst
  · cases hst
  cases a with
  | run => exact resume_emptied h hst
  | timer =>
    simp only at hst
    split at hst
    · cases hst
      exact threadYield_emptied _ h
    · cases hst
  | call c =>
    simp only at hst
    split at hst
    · cases hst
      exact doCall_emptied c h
    · cases hst
  | compute | interruptsSet | finish =>
    simp only at hst
    split at hst
    · cases hst
      exact h
    · cases hst

/-- In every run nobody stands in a queue that was destroyed. -/
theorem destroyed_queue_empty {ok : State → Action → Prop} (h : Reachable ok s)
    (hr : s.status = .running) {queue : WaitQueue} (hf : s.freed queue = true) :
    s.waitQueues queue = [] := by
  have he : Emptied s := by
    clear hr hf
    induction h with
    | init => exact fun _ _ _ => rfl
    | step a _ _ hst ih => exact step_emptied ih hst
  exact he hr queue hf

end DestroyedQueues
end OsLabs

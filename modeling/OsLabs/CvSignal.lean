import OsLabs.DestroyedQueues

/-!
# Signals and killed threads

`cv_signal` wakes the thread that went to sleep first. `thread_kill` leaves a sleeping thread in
its queue, so the thread that is woken may be marked to exit.
-/

namespace OsLabs
namespace CvSignal

open ThreadModel Scheduler SchedulerView SchedulerRefinement SchedulerRun Transition

/-- The thread is taken from the queue of the cv and put into the ready queue. -/
def MovedToReady (cv : ℕ) (s s' : State) (t : Tid) : Prop :=
  t ∈ s.waitQueues (.waitOnCv cv) ∧ t ∉ s'.waitQueues (.waitOnCv cv) ∧
    t ∉ s.readyQueue ∧ t ∈ s'.readyQueue

/-- `cv_signal` by the owner of the lock, on a queue with a waiter. -/
theorem step_cvSignal {s : State} {cv lock : ℕ} {k : List Frame} {first : Tid} {rest : List Tid}
    (hr : s.status = .running) (hf : s.frames = .own::k) (hd : s.freed (.waitOnCv cv) = false)
    (ho : ownsLock lock s = true) (hq : s.waitQueues (.waitOnCv cv) = first::rest) :
    ∃ s', step s (.call (.cvSignal cv lock)) = some s' ∧ s'.readyQueue = s.readyQueue ++ [first] ∧
      s'.waitQueues (.waitOnCv cv) = rest := by
  let s₁ : State := { s.record (.call s.self (.cvSignal cv lock) s.interrupts) with
    frames := .call (.cvSignal cv lock)::.own::k }
  let s₂ := s₁.record (.passed s₁.self lock)
  have hst : step s (.call (.cvSignal cv lock)) = some (cvSignal cv lock s₁) := by
    simp only [step,hr,hf,ne_eq,not_true_eq_false,if_false,doCall,s₁]
  have hd₁ : s₁.freed (.waitOnCv cv) = false := hd
  have ho₁ : ownsLock lock s₁ = true := ho
  have hsome : (s₁.locks lock).isSome = true := by
    cases hl : s.locks lock with
    | none => simp [ownsLock,hl] at ho
    | some l => simp [s₁,State.record,hl]
  have hsig : cvSignal cv lock s₁ =
      return_ 0 (threadWakeup .cvSignal (.waitOnCv cv) 0 s₂).2 := by
    simp only [cvSignal,cvWakeup,withQueue,hd₁,Bool.false_eq_true,if_false,withLock,hsome,ho₁,if_true,s₂]
  have hq₂ : s₂.waitQueues (.waitOnCv cv) = first::rest := hq
  have hw : (threadWakeup .cvSignal (.waitOnCv cv) 0 s₂).2 = addToTail first
      ((s₂.setQueue (.waitOnCv cv) rest).record (.woken (s₂.inst first) (.waitOnCv cv) .cvSignal)) := by
    simp [threadWakeup,hq₂]
  refine ⟨_,hst,?_,?_⟩ <;> rw [hsig,hw,return_call (c := .cvSignal cv lock) (b := .own::k) 0 rfl]
  · rfl
  · simp [State.record,addToTail,State.setQueue]

/-- In every run `cv_signal` by the owner of the lock moves the first waiter of the cv to the
ready queue and no other thread; so it moves a thread that is not marked if and only if the
first waiter is not marked. -/
theorem cv_signal_wakes_first {s : State} (h : Reachable anyStep s) (hr : s.status = .running)
    {k : List Frame} (hf : s.frames = .own::k) {cv lock : ℕ} (ho : ownsLock lock s = true)
    (hw : s.waitQueues (.waitOnCv cv) ≠ []) :
    ∃ s' first rest, step s (.call (.cvSignal cv lock)) = some s' ∧
      s.waitQueues (.waitOnCv cv) = first::rest ∧ s'.waitQueues (.waitOnCv cv) = rest ∧
      s'.readyQueue = s.readyQueue ++ [first] ∧ (∀ t, MovedToReady cv s s' t ↔ t = first) ∧
      ((∃ t, MovedToReady cv s s' t ∧ (s.TCBs t).killOnNextRun = false) ↔
        (s.TCBs first).killOnNextRun = false) := by
  obtain ⟨hs,-⟩ := sound_control_of_reachable h hr
  obtain ⟨first,rest,hq⟩ := List.exists_cons_of_ne_nil hw
  have hd : s.freed (.waitOnCv cv) = false := by
    by_contra hd
    exact hw (DestroyedQueues.destroyed_queue_empty h hr (by simpa using hd))
  obtain ⟨s',hst,hready,hrest⟩ := step_cvSignal hr hf hd ho hq
  have hmoved : ∀ t, MovedToReady cv s s' t ↔ t = first := by
    intro t
    constructor
    · rintro ⟨hm,hn,-,-⟩
      rw [hrest] at hn
      rw [hq] at hm
      exact (List.mem_cons.mp hm).resolve_right hn
    · rintro rfl
      have hnodup : (t::rest).Nodup := hq ▸ hs.waits_nodup (.waitOnCv cv)
      have hmem : t ∈ s.waitQueues (.waitOnCv cv) := by rw [hq]; exact List.mem_cons_self
      refine ⟨hmem,?_,fun hrd => hs.notMem_waits_of_ready hrd hmem,?_⟩
      · rw [hrest]; exact (List.nodup_cons.mp hnodup).1
      · rw [hready]; simp
  refine ⟨s',first,rest,hst,hq,hrest,hready,hmoved,?_⟩
  constructor
  · rintro ⟨t,ht,hk⟩
    rwa [(hmoved t).mp ht] at hk
  · exact fun hk => ⟨first,(hmoved first).mpr rfl,hk⟩

/-- Threads 1 and 2 wait on the cv, one after the other, and the main thread acquires the lock. -/
def twoWaiters : List Action :=
  [.call (.threadCreate true),.call (.threadCreate true),.call (.threadYield 1),.run,.run,.run,
    .call (.lockAcquire 0),.call (.cvWait 0 0),.run,.run,.run,.call (.lockAcquire 0),
    .call (.cvWait 0 0),.run,.call (.lockAcquire 0)]

def afterTwoWaiters : State := final step twoWaiters threadInit (by decide +kernel)

theorem afterTwoWaiters_wakes_first : afterTwoWaiters.waitQueues (.waitOnCv 0) = [1,2] ∧
    ∃ s' first rest, step afterTwoWaiters (.call (.cvSignal 0 0)) = some s' ∧
      afterTwoWaiters.waitQueues (.waitOnCv 0) = first::rest ∧
      s'.waitQueues (.waitOnCv 0) = rest ∧
      s'.readyQueue = afterTwoWaiters.readyQueue ++ [first] ∧
      (∀ t, MovedToReady 0 afterTwoWaiters s' t ↔ t = first) ∧
      ((∃ t, MovedToReady 0 afterTwoWaiters s' t ∧
        (afterTwoWaiters.TCBs t).killOnNextRun = false) ↔
        (afterTwoWaiters.TCBs first).killOnNextRun = false) := by
  have hf : afterTwoWaiters.frames = [.own] := by decide +kernel
  have ho : ownsLock 0 afterTwoWaiters = true := by decide +kernel
  have hr : Reachable anyStep afterTwoWaiters := reachable_final .init fun _ _ _ => trivial
  exact ⟨by decide +kernel,cv_signal_wakes_first hr (by decide +kernel) hf ho (by decide +kernel)⟩

/-- The main thread kills thread 1 while it waits on the cv, before thread 2. -/
def afterKillWaiter : State := final step [.call (.threadKill 1),.run] afterTwoWaiters (by decide +kernel)

def afterSignalKilled : State := final step [.call (.cvSignal 0 0)] afterKillWaiter (by decide +kernel)

theorem signal_swallowed : Reachable anyStep afterKillWaiter ∧
    ownsLock 0 afterKillWaiter = true ∧
    (∃ t ∈ afterKillWaiter.waitQueues (.waitOnCv 0),
      (afterKillWaiter.TCBs t).killOnNextRun = false) ∧
    step afterKillWaiter (.call (.cvSignal 0 0)) = some afterSignalKilled ∧
    ¬ ∃ t, MovedToReady 0 afterKillWaiter afterSignalKilled t ∧
      (afterKillWaiter.TCBs t).killOnNextRun = false := by
  have hq : afterKillWaiter.waitQueues (.waitOnCv 0) = [1,2] := by decide +kernel
  have hq' : afterSignalKilled.waitQueues (.waitOnCv 0) = [2] := by decide +kernel
  have hk : (afterKillWaiter.TCBs 1).killOnNextRun = true := by decide +kernel
  have hk' : (afterKillWaiter.TCBs 2).killOnNextRun = false := by decide +kernel
  refine ⟨reachable_final (reachable_final .init fun _ _ _ => trivial) fun _ _ _ => trivial,by decide +kernel,
    ⟨2,by rw [hq]; simp,hk'⟩,?_,?_⟩
  · exact step_of_final rfl
  · rintro ⟨t,⟨hm,hn,-,-⟩,hu⟩
    rw [hq] at hm
    rw [hq'] at hn
    obtain rfl : t = 1 := by simpa [show t ≠ 2 by simpa using hn] using hm
    rw [hk] at hu
    cases hu

end CvSignal
end OsLabs

import OsLabs.SchedulerRun

/-!
# Waiting for a free lock

`lock_acquire` tests the lock and goes to its queue without an interruption, and
`lock_release` empties the queue, so nobody waits for a lock that is free. `lock_destroy`
runs with interrupts enabled: between its assertion and the point where it frees the queue
another thread can acquire the lock and a third one can begin to wait for it.
-/

namespace OsLabs
namespace LockWaiters

open ThreadModel Scheduler SchedulerView SchedulerRefinement SchedulerRun Transition

/-- No thread begins to wait for a lock while some thread is inside `lock_destroy` of it. -/
def Undisturbed (s : State) (a : Action) : Prop :=
  ∀ lock, acquireRound s a = some lock → taken lock s = true →
    ∀ t, pendingCall (stack s t) ≠ some (.lockDestroy lock)

theorem waitOnLock_eq_nil {s : State} (h : Reachable anyStep s) (hr : s.status = .running)
    {lock : ℕ} {l : Lock} (hl : s.locks lock = some l) (hf : l.isAcquired = false) :
    s.waitQueues (.waitOnLock lock) = [] := by
  obtain ⟨σ,hs,hsound,_⟩ := shown_of_reachable (D := Set.univ) (P := fun _ => True)
    (fun _ _ _ _ _ d => .inl (Set.mem_univ d)) trivial (fun _ _ _ _ _ => trivial) h
  obtain rfl := hs.eq_view hr
  by_contra hw
  obtain ⟨l',hl',ha⟩ := hsound.blocked lock hw
  obtain rfl : l = l' := Option.some.inj (hl.symm.trans hl')
  simp [hf] at ha

/-- A queue loses no thread in a scheduler that does not discard, or does not begin to wait for a
lock that is being destroyed. -/
theorem Move.not_discarded {D : Set Defect} {σ σ' : Sched} (hm : Move D σ σ') {queue : WaitQueue}
    (hD : .discard ∈ D → ∃ lock, queue = .waitOnLock lock ∧ .contended ∉ D)
    (h : ∀ t, Event.discarded t queue ∉ σ.history) : ∀ t, Event.discarded t queue ∉ σ'.history := by
  intro t
  have hn := h t
  cases hm with
  | discard q tid rest hd hl _ =>
    have hne : queue ≠ q := by
      rintro rfl
      obtain ⟨lock,he,hnot⟩ := hD hd
      subst he
      exact hnot hl
    simp [Sched.record,hn,hne]
  | wake => simp [Sched.wake,hn]
  | switch =>
    simp only [Sched.switch]
    split <;> simp [hn]
  | exit => simp [Sched.exit,hn]
  | create => simp [Sched.create,hn]
  | _ => simp [Sched.ret,Sched.modify,Sched.record,Sched.setLock,hn]

/-- In every run a lock that is not acquired has no waiters; in the runs in which nobody begins
to wait for a lock that is being destroyed, `lock_destroy` discards no waiter. -/
theorem free_lock_unwaited (s : State) :
    (Reachable anyStep s → s.status = .running → ∀ lock l, s.locks lock = some l →
      l.isAcquired = false → s.waitQueues (.waitOnLock lock) = []) ∧
    (Reachable Undisturbed s → ∀ t lock, .discarded t (.waitOnLock lock) ∉ s.history) := by
  refine ⟨fun h hr lock l hl hf => waitOnLock_eq_nil h hr hl hf,fun h t lock => ?_⟩
  obtain ⟨σ,hs,_,hn,_⟩ := shown_of_reachable (D := {d | d ≠ .contended})
    (fun _ _ _ _ ha d => (em (d = .contended)).elim (fun hd => .inr (hd ▸ ha)) .inl)
    (P := fun σ => ∀ t, .discarded t (.waitOnLock lock) ∉ σ.history) (by simp [view,threadInit])
    (fun _ _ _ h hm => Move.not_discarded hm (fun _ => ⟨lock,rfl,by simp⟩) h) h
  cases hs with
  | view hv => subst hv; exact hn t
  | halted _ _ hh _ => rw [hh]; simp [hn t]

def afterRelease : State :=
  final step [.call (.lockAcquire 0),.call (.lockRelease 0),.call (.lockDestroy 0),.run,.run] threadInit
    (by decide +kernel)

/-- A test that allows the steps that do not wait for a lock. -/
def waitsForNoLock (s : State) (a : Action) : Bool :=
  match acquireRound s a with
  | some lock => !taken lock s
  | none => true

theorem undisturbed_of_waitsForNoLock (s : State) (a : Action) (h : waitsForNoLock s a = true) :
    Undisturbed s a := by
  intro lock hr ht
  simp [waitsForNoLock,hr,ht] at h

theorem afterRelease_unwaited :
    afterRelease.waitQueues (.waitOnLock 1) = [] ∧
      ∀ t lock, .discarded t (.waitOnLock lock) ∉ afterRelease.history := by
  have hr : Reachable Undisturbed afterRelease :=
    reachable_final_of_checked undisturbed_of_waitsForNoLock .init (by decide +kernel)
  exact ⟨(free_lock_unwaited _).1 (hr.mono fun _ _ _ => trivial) (by decide +kernel) 1 lockCreate rfl rfl,
    (free_lock_unwaited _).2 hr⟩

/-- The main thread is interrupted inside `lock_destroy`; thread 1 acquires the lock, thread 2
begins to wait for it, and the main thread takes thread 2 out of the queue. -/
def destroyInterrupted : List Action :=
  [.call (.threadCreate true),.call (.threadCreate true),.call (.lockDestroy 0),.timer,.run,.run,.run,
    .call (.lockAcquire 0),.call (.threadYield 2),.run,.run,.run,.call (.lockAcquire 0),.run,.run]

def afterDestroyInterrupted : State := final step destroyInterrupted threadInit (by decide +kernel)

theorem destroyInterrupted_discards : Reachable anyStep afterDestroyInterrupted ∧
    .discarded 2 (.waitOnLock 0) ∈ afterDestroyInterrupted.history :=
  ⟨reachable_final .init fun _ _ _ => trivial,by decide +kernel⟩

end LockWaiters
end OsLabs

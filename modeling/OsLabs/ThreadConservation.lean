import OsLabs.SchedulerRun

/-!
# Thread conservation

No thread is lost from the scheduler and none is queued twice, as long as a thread that
enters `thread_yield` carries neither a kill mark nor a left-over `setcontext_called`.
-/

namespace OsLabs
namespace ThreadConservation

open ThreadModel Scheduler SchedulerView SchedulerRun Transition

/-- A place of the package that holds one thread. -/
inductive Position
  | current
  | ready (n : ℕ)
  | waiting (queue : WaitQueue) (n : ℕ)

def occupant (s : State) : Position → Option Tid
  | .current => some s.currentThreadId
  | .ready n => s.readyQueue[n]?
  | .waiting queue n => (s.waitQueues queue)[n]?

structure Conserved (s : State) : Prop where
  placed : ∀ t, 0 ≤ t → t < threadMaxThreads → (s.TCBs t).tState ≠ .notAssigned →
    ∃! p, occupant s p = some t
  free : ∀ t, 0 ≤ t → t < threadMaxThreads → (s.TCBs t).tState = .notAssigned →
    (∀ p, occupant s p ≠ some t) ∧ s.availableThreadIds.count t = 1
  running : ∀ t, (s.TCBs t).tState = .running ↔ t = s.currentThreadId

/-- The place of the abstract scheduler and the index in it that a position stands for. -/
def Position.place : Position → Place × ℕ
  | .current => (.running,0)
  | .ready n => (.ready,n)
  | .waiting queue n => (.waiting queue,n)

theorem Position.place_inj {p q : Position} (h : p.place = q.place) : p = q := by
  cases p <;> cases q <;> simp_all [Position.place]

theorem occupant_eq (s : State) (p : Position) :
    occupant s p = ((view s).place p.place.1)[p.place.2]? := by
  cases p <;> rfl

/-- A thread in an occupied place stands at exactly one position. -/
theorem existsUnique_position {s : State} (h : Inv (view s)) {t : Tid} {p : Place}
    (ha : p ≠ .available) (ht : t ∈ (view s).place p) : ∃! p, occupant s p = some t := by
  have uniq : ∀ {q q' : Position}, occupant s q = some t → occupant s q' = some t → q = q' := by
    intro q q' hq hq'
    rw [occupant_eq] at hq hq'
    obtain ⟨_,_,hu⟩ := h.exclusive.existsUnique ht
    exact Position.place_inj ((hu _ hq).trans (hu _ hq').symm)
  obtain ⟨n,hn⟩ := List.mem_iff_getElem?.mp ht
  obtain ⟨q,hq⟩ : ∃ q, occupant s q = some t := by
    cases p with
    | running =>
      refine ⟨.current,?_⟩
      have : t = s.currentThreadId := by simpa [Sched.place,places,view] using ht
      rw [this]; rfl
    | available => exact absurd rfl ha
    | ready => exact ⟨.ready n,hn⟩
    | waiting queue => exact ⟨.waiting queue n,hn⟩
  exact ⟨q,hq,fun q' hq' => uniq hq' hq⟩

theorem conserved_of_inv {s : State} (h : Inv (view s)) (hc : Complete (view s)) : Conserved s where
  placed t h₀ h₁ hn := by
    obtain ⟨p,hp⟩ := hc.placed t h₀ h₁
    refine existsUnique_position h ?_ hp
    rintro rfl
    exact hn (h.free t hp)
  free t h₀ h₁ hn := by
    obtain ⟨p,hp⟩ := hc.placed t h₀ h₁
    have havail : t ∈ (view s).place .available := by
      cases p with
      | running =>
        have ht : t = s.currentThreadId := by simpa [Sched.place,places,view] using hp
        exact absurd (hn.symm.trans ((h.running t).mpr ht)) (by simp)
      | available => exact hp
      | ready => exact absurd (hn.symm.trans (h.ready t hp)) (by simp)
      | waiting q => exact absurd (hn.symm.trans (h.waiting q t hp)) (by simp)
    refine ⟨fun q hq => ?_,List.count_eq_one_of_mem (h.exclusive.nodup .available) havail⟩
    rw [occupant_eq] at hq
    have he := h.exclusive.unique havail (List.mem_of_getElem? hq)
    cases q <;> simp [Position.place] at he
  running := h.running

/-- The steps that lose no thread: `thread_yield` takes a ready thread out of its queue only
when the running thread is not marked and has no left-over `setcontext_called`; and, beyond the
calls of the scheduler itself, a stack is always available and `wait_queue_destroy` meets no waiter. -/
def Conserving (s : State) (a : Action) : Prop :=
  (takesReady s a → s.tcb.killOnNextRun = false ∧ s.tcb.setcontextCalled = false) ∧
    a ≠ .call (.threadCreate false) ∧
    ∀ queue, destroyRound s a = some queue → s.waitQueues queue = []

/-- Every thread of a run of conserving steps stands at exactly one position. -/
theorem threads_conserved {s : State} (h : Reachable Conserving s) (hr : s.status = .running) :
    Conserved s := by
  have hok : ∀ s a, Reachable Conserving s → s.status = .running → Conserving s a →
      ∀ d, d ∈ ({.earlyWait,.earlyCvWait,.recycle,.contended} : Set Defect) ∨ Clean d s a := by
    rintro s a _ _ ⟨h₁,h₂,h₃⟩ d
    cases d with
    | lose => exact .inr h₁
    | forget => exact .inr h₂
    | discard => exact .inr h₃
    | _ => exact .inl (by simp)
  obtain ⟨σ,hs,hsound,hcomplete,_⟩ := shown_of_reachable hok threadInit_complete
    (fun σ σ' _ hc hm => hm.complete (by simp [losses]) hc) h
  obtain rfl := hs.eq_view hr
  exact conserved_of_inv hsound.toInv hcomplete

theorem create_runs : (exec step [.call (.threadCreate true)] threadInit).isSome = true := by
  decide +kernel

def afterCreate : State := final step [.call (.threadCreate true)] threadInit create_runs

def afterSwitch : State := final step [.call (.threadYield 1)] afterCreate (by decide +kernel)

theorem afterSwitch_conserved : afterSwitch.currentThreadId = 1 ∧ Conserved afterSwitch := by
  refine ⟨by decide +kernel,threads_conserved (.next (.next .init _ ?_ _) _ ?_ _) (by decide +kernel)⟩
  · exact ⟨False.elim,by simp,by simp [destroyRound]⟩
  · exact ⟨fun _ => by decide +kernel,by simp,by simp [destroyRound]⟩

/-- Thread 2 is lost when thread 1, killed before it ever ran, is interrupted in `thread_stub`
before it reads its mark: the timer's `thread_yield` takes thread 2 out and then exits. -/
def killedInStub : List Action :=
  [.call (.threadCreate true),.call (.threadCreate true),.call (.threadKill 1),.run,
    .call (.threadYield 1),.run,.timer]

def afterKilledInStub : State := final step killedInStub threadInit (by decide +kernel)

set_option maxRecDepth 100000 in
theorem afterKilledInStub_waitQueues (q : WaitQueue) : afterKilledInStub.waitQueues q = [] := rfl

theorem killedInStub_not_conserved :
    Reachable (fun _ a => a ≠ .call (.threadCreate false) ∧ ∀ lock, a ≠ .call (.lockDestroy lock))
      afterKilledInStub ∧ afterKilledInStub.status = .running ∧ ¬ Conserved afterKilledInStub := by
  refine ⟨reachable_final .init (by simp [killedInStub]),by decide +kernel,fun h => ?_⟩
  have hready : (afterKilledInStub.TCBs 2).tState ≠ .notAssigned := by decide +kernel
  obtain ⟨p,hp,_⟩ := h.placed 2 (by decide) (by decide) hready
  cases p with
  | current =>
    have hc : some afterKilledInStub.currentThreadId ≠ some 2 := by decide +kernel
    exact hc hp
  | ready n =>
    have hr : (2 : Tid) ∉ afterKilledInStub.readyQueue := by decide +kernel
    exact hr (List.mem_of_getElem? hp)
  | waiting q n => simp [occupant,afterKilledInStub_waitQueues] at hp

end ThreadConservation
end OsLabs

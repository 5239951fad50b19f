import OsLabs.InterruptDiscipline

/-!
# Stacks are freed when nobody runs on them

`freeTCBStacks` and `thread_create` free stacks of slots that no thread uses, with one exception:
a created thread that ends when nobody else can run frees the stack it is running on.
-/

namespace OsLabs
namespace FreedStacks

open ThreadModel Scheduler SchedulerView SchedulerRefinement SchedulerRun ThreadTrace Trace
open InterruptDiscipline Transition

section Last

variable {s₀ : State} {x : Trace s₀} {i : Tid}

theorem follows_of_interruptsSet {R : State → State → Prop} {b : Bool}
    (h : Follows R (x.interruptsSet b)) : Follows R x := (follows_assign.mp h).2

theorem follows_of_freeStack {R : State → State → Prop} (h : Follows R (freeStack i x)) : Follows R x := by
  simp only [freeStack] at h
  split at h
  · exact (follows_assign.mp h).2
  · exact h

theorem follows_of_sweep {R : State → State → Prop} : ∀ (l : List Tid) (x : Trace s₀),
    Follows R (l.foldl (fun x i => freeStack i x) x) → Follows R x
  | [], _, h => h
  | _::l, _, h => follows_of_freeStack (follows_of_sweep l _ h)

/-- The stack of a reclaimable slot of the list is freed, so that nobody may run on it. -/
theorem ne_current_of_sweep : ∀ (l : List Tid) (x : Trace s₀), i ∈ l → Reclaimable x.now i →
    Follows FreesUnused (l.foldl (fun x i => freeStack i x) x) → i ≠ x.now.currentThreadId
  | j::l, x, hm, hr, h => by
    by_cases hj : i = j
    · subst hj
      have hstep : Follows FreesUnused (freeStack i x) := follows_of_sweep l _ h
      rw [freeStack,if_pos hr.2] at hstep
      refine ((follows_assign.mp hstep).1 i ⟨hr.2.1,?_⟩).1
      simp [State.modify]
    · have hl : i ∈ l := (List.mem_cons.mp hm).resolve_left hj
      have hr' : Reclaimable (freeStack j x).now i := by
        rw [freeStack_now]
        simpa [Reclaimable,swept,hj] using hr
      have hc : (freeStack j x).now.currentThreadId = x.now.currentThreadId := by
        rw [freeStack_now]
        rfl
      exact hc ▸ ne_current_of_sweep l (freeStack j x) hl hr' h

/-- The last thread frees its own stack. -/
theorem not_follows_threadExit (hv : 1 ≤ x.now.currentThreadId ∧ x.now.currentThreadId < threadMaxThreads)
    (he : EndsLast x.now) (marked : Bool) : ¬ Follows FreesUnused (threadExit marked x) := by
  obtain ⟨-,hs,hl⟩ := he
  have hw : ∀ t ∈ x.now.waitQueues (.tWait x.now.currentThreadId), t ≠ -1 := by
    rw [(List.append_eq_nil_iff.mp hl).2]
    simp
  have hexit : (exiting marked x).now = exited marked x.now := exiting_eq x hw
  have hready : (exiting marked x).now.readyQueue = [] := by
    rw [hexit]
    exact hl
  have hnone : removeNextReadyThread (exiting marked x).now = (-1,(exiting marked x).now) := by
    simp only [removeNextReadyThread,hready]
  intro h
  simp only [ThreadTrace.threadExit,hnone,if_true] at h
  have hfree := follows_of_interruptsSet (follows_assign.mp h).2
  rw [ThreadTrace.freeTCBStacks] at hfree
  refine ne_current_of_sweep initialThreadIds _ (mem_available.mpr hv) ?_ hfree ?_
  · simp only [assign_now,hnone]
    rw [hexit]
    exact ⟨hv.1,by simpa [exited,State.tcb] using hs,by simp [exited]⟩
  · simp only [assign_now,hnone]
    rw [hexit]
    rfl

/-- A running thread's stack is not freed by others. -/
theorem endsLast_freed {s : State} (hr : (s.TCBs s.currentThreadId).tState = .running) (he : EndsLast s) :
    EndsLast (ThreadModel.freeTCBStacks s) := by
  refine ⟨he.1,?_,he.2.2⟩
  have hs := he.2.1
  simp only [State.tcb] at hs
  simp [State.tcb,ThreadModel.freeTCBStacks,hr,hs]

theorem not_follows_afterGetcontext (hv : 1 ≤ x.now.currentThreadId ∧ x.now.currentThreadId < threadMaxThreads)
    (hr : (x.now.TCBs x.now.currentThreadId).tState = .running) (hk : x.now.tcb.killOnNextRun = true)
    (he : EndsLast x.now) (n o tk : Tid) (e : Bool) :
    ¬ Follows FreesUnused (afterGetcontext n o tk e x) := by
  have hnow := freeWithInterruptsOff_now x
  obtain ⟨b,hb⟩ := freeTCBStacks_TCBs x.now x.now.currentThreadId
  have hk' : (freeWithInterruptsOff x).now.tcb.killOnNextRun = true := by
    rw [hnow]
    exact (congrArg Thread.killOnNextRun hb).trans hk
  simp only [ThreadTrace.afterGetcontext,hk',if_true]
  refine not_follows_threadExit ?_ ?_ true
  · rw [hnow]
    exact hv
  · rw [hnow]
    exact endsLast_freed hr he

theorem not_follows_yieldTo (hv : 1 ≤ x.now.currentThreadId ∧ x.now.currentThreadId < threadMaxThreads)
    (hr : (x.now.TCBs x.now.currentThreadId).tState = .running) (hk : x.now.tcb.killOnNextRun = true)
    (he : EndsLast x.now) (n : Tid) (e : Bool) : ¬ Follows FreesUnused (yieldTo n e x) := by
  simp only [ThreadTrace.yieldTo]
  apply not_follows_afterGetcontext
  · exact hv
  · simpa [State.modify] using hr
  · simpa [State.modify,State.tcb] using hk
  · refine ⟨he.1,?_,he.2.2⟩
    simpa [State.modify,State.tcb] using he.2.1

theorem threadYield_any {n : Tid} {rest : List Tid} (hc : threadAny ≠ x.now.currentThreadId)
    (hr : x.now.readyQueue = n::rest) (hne : n ≠ -1) : threadYield threadAny x =
      yieldTo n x.now.interrupts ((x.interruptsSet false).assign fun s => (takeReady threadAny s).2) ∧
      ((x.interruptsSet false).assign fun s => (takeReady threadAny s).2).now =
        { masked false x.now with readyQueue := rest } := by
  have htake : takeReady threadAny (masked false x.now) =
      (n,{ masked false x.now with readyQueue := rest }) := by
    have hy : (masked false x.now).readyQueue = n::rest := hr
    simp [takeReady,removeNextReadyThread,hy]
  refine ⟨?_,congrArg Prod.snd htake⟩
  have hc' : ¬ threadAny = (masked false x.now).currentThreadId := hc
  simp only [ThreadTrace.threadYield,interruptsSet_now,htake]
  rw [if_neg (by decide),if_neg (by decide),if_neg hc',if_neg (fun h => absurd h.1 (by decide)),
    if_neg hne]

end Last

section Steps

variable {s : State} {x : Trace s} {a : Action}

/-- The timer handler of a killed thread takes the only ready thread and then ends. -/
theorem not_follows_timer (hv : Inv (view s)) (hk : s.tcb.killOnNextRun = true) {n : Tid}
    (hn : s.readyQueue = [n]) (he : EndsLast { s with readyQueue := [] }) :
    ¬ Follows FreesUnused (threadYield threadAny
      ((start s).assign fun s => { s with interrupts := false, frames := .handler::s.frames })) := by
  have hcur := hv.current_range
  have hr : (s.TCBs s.currentThreadId).tState = .running := (hv.running s.currentThreadId).mpr rfl
  have hne : n ≠ -1 := (idle_of_inv hv).ready n (by simp [hn])
  have hself : threadAny ≠ s.currentThreadId := fun h =>
    absurd (h ▸ hcur.1 : (0 : ℤ) ≤ threadAny) (by decide)
  obtain ⟨hyield,hnow⟩ := threadYield_any (x := (start s).assign fun s =>
    { s with interrupts := false, frames := .handler::s.frames }) hself hn hne
  rw [hyield]
  apply not_follows_yieldTo
  · rw [hnow]
    exact ⟨lt_of_le_of_ne hcur.1 (Ne.symm he.1),hcur.2⟩
  · rw [hnow]
    exact hr
  · rw [hnow]
    exact hk
  · rw [hnow]
    exact he

/-- A step that ends the process on an allocated stack frees that stack. -/
theorem not_follows_of_endsProcess (hv : Inv (view s)) (hx : traced s a = some x)
    (he : EndsProcess s a) : ¬ Follows FreesUnused x := by
  have hcur : s.currentThreadId ≠ 0 → 1 ≤ s.currentThreadId ∧ s.currentThreadId < threadMaxThreads :=
    fun hne => ⟨lt_of_le_of_ne hv.current_range.1 (Ne.symm hne),hv.current_range.2⟩
  have hr : (s.TCBs s.currentThreadId).tState = .running := (hv.running s.currentThreadId).mpr rfl
  simp only [traced] at hx
  split at hx
  · cases hx
  obtain ⟨hex,he⟩ := he
  cases a with
  | run =>
    simp only [exits] at hex
    simp only [ThreadTrace.resume] at hx
    split at hex
    · rename_i k hf
      simp only [hf] at hx
      obtain rfl := Option.some.inj hx
      exact not_follows_threadExit (hcur he.1) he false
    · rename_i k hf
      simp only [hf,hex,if_true] at hx
      obtain rfl := Option.some.inj hx
      exact not_follows_threadExit (hcur he.1) he true
    · rename_i n o tk e k hf
      simp only [hf] at hx
      obtain rfl := Option.some.inj hx
      exact not_follows_afterGetcontext (hcur he.1) hr hex he n o tk e
    · cases hex
  | timer =>
    obtain ⟨hk,hne⟩ := Bool.and_eq_true_iff.mp hex
    obtain ⟨n,rest,hn⟩ := List.exists_cons_of_ne_nil (l := s.readyQueue) (by simpa using hne)
    have hrest : rest = [] := by
      have := (List.append_eq_nil_iff.mp he.2.2).1
      simpa [readyAtExit,hn] using this
    subst hrest
    simp only at hx
    split at hx
    · obtain rfl := Option.some.inj hx
      refine not_follows_timer hv hk hn ?_
      simpa [readyAtExit,hn] using he
    · cases hx
  | call c =>
    obtain rfl : c = .threadExit := by simpa [exits] using hex
    simp only at hx
    split at hx
    · obtain rfl := Option.some.inj hx
      exact not_follows_threadExit (hcur he.1) he false
    · cases hx
  | compute => cases hex
  | interruptsSet e => cases hex
  | finish => cases hex

theorem withQueue_TCBs {queue : WaitQueue} {f : State → State} {s : State} (h : (f s).TCBs = s.TCBs) :
    (ThreadModel.withQueue queue f s).TCBs = s.TCBs := by
  simp only [ThreadModel.withQueue]
  split
  · rfl
  · exact h

theorem return_TCBs (v : ℤ) (s : State) : (return_ v s).TCBs = s.TCBs := by
  obtain ⟨m,k,h,he⟩ := returnTo_eq v s.frames s
  exact (congrArg State.TCBs he :)

/-- `wait_queue_destroy` frees no stack. -/
theorem destroyLoop_TCBs (queue : WaitQueue) (s : State) :
    (ThreadModel.destroyLoop queue s).TCBs = s.TCBs := by
  refine withQueue_TCBs ?_
  cases hq : s.waitQueues queue with
  | nil => simp [popHeadThreadWait,hq]
  | cons t rest =>
    simp only [popHeadThreadWait,hq]
    split <;> rfl

theorem destroyEnd_TCBs (queue : WaitQueue) (s : State) :
    (ThreadModel.destroyEnd queue s).TCBs = s.TCBs := by
  refine withQueue_TCBs ?_
  cases queue with
  | waitOnLock lock => exact return_TCBs 0 ((freeWaitQueue _ s).setLock lock none)
  | _ => exact return_TCBs 0 (freeWaitQueue _ s)

theorem follows_destroy {queue : WaitQueue} (hq : destroyRound s a = some queue)
    (hx : traced s a = some x) : Follows FreesUnused x := by
  have kept : ∀ {k : List Frame} {f : State → State}, (∀ s, (f s).TCBs = s.TCBs) →
      Follows FreesUnused (((start s).assign fun s => { s with frames := k }).assign f) := fun hf =>
    follows_assign.mpr ⟨freesUnused_of_kept fun i hi => by rw [hf]; exact hi,
      follows_assign.mpr ⟨freesUnused_of_kept fun i hi => hi,follows_start _ s⟩⟩
  cases a with
  | run =>
    simp only [traced] at hx
    split at hx
    · cases hx
    simp only [destroyRound] at hq
    split at hq
    · rename_i hf
      simp only [ThreadTrace.resume,hf] at hx
      obtain rfl := Option.some.inj hx
      exact kept (destroyLoop_TCBs _)
    · rename_i hf
      simp only [ThreadTrace.resume,hf] at hx
      obtain rfl := Option.some.inj hx
      exact kept (destroyEnd_TCBs _)
    · cases hq
  | _ => cases hq

/-- The stacks freed by a step are unused unless the step ends the process on one of them. -/
theorem follows_freesUnused_iff (hv : Inv (view s)) (hh : Here s) (hx : traced s a = some x) :
    Follows FreesUnused x ↔ ¬ EndsProcess s a := by
  constructor
  · exact fun hf he => not_follows_of_endsProcess hv hx he hf
  · intro he
    rcases follows_traced (D := ¬ EndsProcess s a) hv hh hx id with ⟨queue,hq⟩ | hm
    · exact follows_destroy hq hx
    · exact Follows.mono (fun _ _ hm => hm.2 he) hm

end Steps

/-! ### Runs -/

/-- Whenever a stack is freed in the run from `s`, no thread uses it. -/
def RunFreesUnused : List Action → State → Prop
  | [], _ => True
  | a::as, s => ∀ x : Trace s, traced s a = some x → Follows FreesUnused x ∧ RunFreesUnused as x.now

/-- No step of the run from `s` ends the process on an allocated stack. -/
def NeverEndsProcess : List Action → State → Prop := Allowed step fun s a => ¬ EndsProcess s a

theorem runFreesUnused_iff_of_reachable {run : List Action} {s s' : State} (h : Reachable anyStep s)
    (hr : exec step run s = some s') : RunFreesUnused run s ↔ NeverEndsProcess run s := by
  induction run generalizing s with
  | nil => exact Iff.rfl
  | cons a as ih =>
    obtain ⟨t,hst,hrest⟩ := Option.bind_eq_some_iff.mp hr
    obtain ⟨x,hx,hnow⟩ := Option.map_eq_some_iff.mp ((traced_now s a).trans hst)
    have hrun := running_of_step hst
    obtain ⟨hs,hc⟩ := sound_control_of_reachable h hrun
    have hiff := follows_freesUnused_iff hs.toInv hc.here hx
    have ih := ih (.step a h trivial hst) hrest
    constructor
    · intro hf
      obtain ⟨h₁,h₂⟩ := hf x hx
      refine ⟨hiff.mp h₁,fun s' hs' => ?_⟩
      obtain rfl := Option.some.inj (hst.symm.trans hs')
      exact ih.mp (hnow ▸ h₂)
    · rintro ⟨h₁,h₂⟩ y hy
      obtain rfl := Option.some.inj (hx.symm.trans hy)
      refine ⟨hiff.mpr h₁,?_⟩
      rw [hnow]
      exact ih.mpr (h₂ t hst)

/-- In a run of the package the freed stacks are unused exactly when no created thread is the last
one to end. -/
theorem run_frees_unused_iff {run : List Action} {s : State} (hr : exec step run threadInit = some s) :
    RunFreesUnused run threadInit ↔ NeverEndsProcess run threadInit :=
  runFreesUnused_iff_of_reachable .init hr

/-- Thread 1 is created, runs and ends; the main thread frees its stack when it runs again. -/
def oneThreadEnds : List Action :=
  [.call (.threadCreate true),.call (.threadYield 1),.run,.run,.run,.call .threadExit,.run]

theorem oneThreadEnds_freesUnused : RunFreesUnused oneThreadEnds threadInit :=
  (run_frees_unused_iff (Option.some_get (by decide +kernel)).symm).mpr
    (checked_iff_allowed.mp (by decide +kernel))

/-- The main thread ends first. -/
def mainEndsFirst : List Action :=
  [.call (.threadCreate true),.call .threadExit,.run,.run,.run,.call .threadExit]

/-- Thread 1 runs on the stack that its `thread_exit` frees. -/
theorem last_thread_frees_own_stack : (exec step mainEndsFirst threadInit).isSome = true ∧
    ¬ RunFreesUnused mainEndsFirst threadInit := by
  have hrun : (exec step mainEndsFirst threadInit).isSome = true := by decide +kernel
  have hno : checked step (fun s a => decide (¬ EndsProcess s a)) mainEndsFirst threadInit = false := by
    decide +kernel
  refine ⟨hrun,fun hf => ?_⟩
  have hc := checked_iff_allowed.mpr
    ((runFreesUnused_iff_of_reachable .init (Option.some_get hrun).symm).mp hf)
  rw [hno] at hc
  cases hc

end FreedStacks
end OsLabs

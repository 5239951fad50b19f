import OsLabs.SavedMasks
import OsLabs.ThreadTrace

/-!
# Interrupts and the scheduler's variables

Between two states of a trace the scheduler's variables change only while interrupts are disabled,
and the stack of a slot is freed only while no thread uses the slot. Both are proved in one pass
over the functions; the second needs that the thread that ends is not the last one.
-/

namespace OsLabs
namespace InterruptDiscipline

open ThreadModel Scheduler SchedulerView SchedulerRefinement SchedulerRun SavedMasks ThreadTrace Trace

/-- The variables that the threads share. -/
structure SameShared (s s' : State) : Prop where
  readyQueue : s'.readyQueue = s.readyQueue
  waitQueues : s'.waitQueues = s.waitQueues
  availableThreadIds : s'.availableThreadIds = s.availableThreadIds
  currentThreadId : s'.currentThreadId = s.currentThreadId
  tState : ∀ t, (s'.TCBs t).tState = (s.TCBs t).tState

/-- They change only while interrupts are disabled. -/
def Guarded (s s' : State) : Prop :=
  SameShared s s' ∨ (s.interrupts = false ∧ s'.interrupts = false)

def Freed (s s' : State) (i : Tid) : Prop :=
  (s.TCBs i).stackToFree = true ∧ (s'.TCBs i).stackToFree = false

/-- The slot is neither the running thread nor one that can still be scheduled. -/
def Unused (s : State) (i : Tid) : Prop :=
  i ≠ s.currentThreadId ∧ i ∉ s.readyQueue ∧ ∀ q, i ∉ s.waitQueues q

def FreesUnused (s s' : State) : Prop := ∀ i, Freed s s' i → Unused s i

/-- What two states of a trace that follow each other satisfy, stacks being watched under `D`. -/
def Micro (D : Prop) (s s' : State) : Prop := Guarded s s' ∧ (D → FreesUnused s s')

/-- `freeTCBStacks` would free the stack of the slot. -/
def Reclaimable (s : State) (i : Tid) : Prop :=
  1 ≤ i ∧ (s.TCBs i).stackToFree = true ∧ (s.TCBs i).tState = .notAssigned

/-- No thread uses a reclaimable slot, and the queues hold identifiers. -/
structure Idle (s : State) : Prop where
  unused : ∀ i, Reclaimable s i → Unused s i
  ready : ∀ t ∈ s.readyQueue, t ≠ -1
  waits : ∀ q, ∀ t ∈ s.waitQueues q, t ≠ -1

/-- The thread that ends in `s` runs on a stack that `thread_create` has allocated for a slot other
than 0, and nobody can run after it. -/
def EndsLast (s : State) : Prop :=
  s.currentThreadId ≠ 0 ∧ s.tcb.stackToFree = true ∧
    s.readyQueue ++ s.waitQueues (.tWait s.currentThreadId) = []

theorem SameShared.refl (s : State) : SameShared s s := ⟨rfl,rfl,rfl,rfl,fun _ => rfl⟩

section Pass

variable {D : Prop} {s₀ : State} {x : Trace s₀}

theorem freesUnused_of_kept {s s' : State} (h : ∀ i, (s.TCBs i).stackToFree = true →
    (s'.TCBs i).stackToFree = true) : FreesUnused s s' := by
  rintro i ⟨h₁,h₂⟩
  rw [h i h₁] at h₂
  cases h₂

theorem quiet {f : State → State} (h : Follows (Micro D) x) (hs : SameShared x.now (f x.now))
    (hk : ∀ i, ((f x.now).TCBs i).stackToFree = (x.now.TCBs i).stackToFree) :
    Follows (Micro D) (x.assign f) :=
  follows_assign.mpr ⟨⟨.inl hs,fun _ => freesUnused_of_kept fun i hi => (hk i).trans hi⟩,h⟩

theorem write {f : State → State} (h : Follows (Micro D) x) (hi : x.now.interrupts = false)
    (hi' : (f x.now).interrupts = false)
    (hk : ∀ i, ((f x.now).TCBs i).stackToFree = (x.now.TCBs i).stackToFree) :
    Follows (Micro D) (x.assign f) :=
  follows_assign.mpr ⟨⟨.inr ⟨hi,hi'⟩,fun _ => freesUnused_of_kept fun i hi => (hk i).trans hi⟩,h⟩

theorem quiet_interruptsSet (h : Follows (Micro D) x) (b : Bool) :
    Follows (Micro D) (x.interruptsSet b) := quiet h ⟨rfl,rfl,rfl,rfl,fun _ => rfl⟩ fun _ => rfl

theorem quiet_status (h : Follows (Micro D) x) (st : Status) :
    Follows (Micro D) (x.assign fun s => { s with status := st }) :=
  quiet h ⟨rfl,rfl,rfl,rfl,fun _ => rfl⟩ fun _ => rfl

theorem quiet_frames (h : Follows (Micro D) x) (k : State → List Frame) :
    Follows (Micro D) (x.assign fun s => { s with frames := k s }) :=
  quiet h ⟨rfl,rfl,rfl,rfl,fun _ => rfl⟩ fun _ => rfl

theorem quiet_record (h : Follows (Micro D) x) (e : State → Event) :
    Follows (Micro D) (x.assign fun s => s.record (e s)) :=
  quiet h ⟨rfl,rfl,rfl,rfl,fun _ => rfl⟩ fun _ => rfl

/-- Changes to the other fields of a control block. -/
theorem quiet_modify (h : Follows (Micro D) x) (t : Tid) {f : Thread → Thread}
    (hs : ∀ th, (f th).tState = th.tState) (hk : ∀ th, (f th).stackToFree = th.stackToFree) :
    Follows (Micro D) (x.assign (State.modify t f)) := by
  refine quiet h { SameShared.refl x.now with tState := fun u => ?_ } fun u => ?_
  · by_cases hu : u = t <;> simp [State.modify,hu,hs]
  · by_cases hu : u = t <;> simp [State.modify,hu,hk]

theorem quiet_modify_current (h : Follows (Micro D) x) {f : State → Thread → Thread}
    (hs : ∀ s th, (f s th).tState = th.tState) (hk : ∀ s th, (f s th).stackToFree = th.stackToFree) :
    Follows (Micro D) (x.assign fun s => s.modify s.currentThreadId (f s)) := by
  refine quiet h { SameShared.refl x.now with tState := fun u => ?_ } fun u => ?_
  · by_cases hu : u = x.now.currentThreadId <;> simp [State.modify,hu,hs]
  · by_cases hu : u = x.now.currentThreadId <;> simp [State.modify,hu,hk]

theorem returnTo_eq (v : ℤ) (k : List Frame) (s : State) : ∃ m k' h, returnTo v k s =
    { s with interrupts := m, frames := k', history := h } := by
  induction k generalizing v s with
  | nil => exact ⟨s.interrupts,[],s.history,rfl⟩
  | cons f k ih =>
    cases f with
    | sleep e =>
      obtain ⟨m,k',h,he⟩ := ih v { s with interrupts := e }
      exact ⟨m,k',h,he⟩
    | wait tid e =>
      obtain ⟨m,k',h,he⟩ := ih tid { s with interrupts := e }
      exact ⟨m,k',h,he⟩
    | cvReacquired cv l e =>
      obtain ⟨m,k',h,he⟩ := ih v { s with interrupts := e }
      exact ⟨m,k',h,he⟩
    | handler => exact ⟨true,k,s.history,rfl⟩
    | call c => exact ⟨s.interrupts,k,_,rfl⟩
    | _ => exact ⟨s.interrupts,_,s.history,rfl⟩

theorem quiet_return (h : Follows (Micro D) x) (v : ℤ) : Follows (Micro D) (x.assign (return_ v)) := by
  obtain ⟨m,k',h',he⟩ := returnTo_eq v x.now.frames x.now
  have he' : return_ v x.now = { x.now with interrupts := m, frames := k', history := h' } := he
  refine quiet h ?_ fun i => ?_
  · rw [he']
    exact ⟨rfl,rfl,rfl,rfl,fun _ => rfl⟩
  · rw [he']

theorem follows_leave (h : Follows (Micro D) x) (e : Bool) (v : ℤ) : Follows (Micro D) (leave e v x) :=
  quiet_return (quiet_interruptsSet h e) v

/-! ### Wake-up, exit and context switch -/

theorem follows_wakeupLoop (waker : Waker) (queue : WaitQueue) (l : List Tid) (n : ℤ)
    (h : Follows (Micro D) x) (hi : x.now.interrupts = false) :
    Follows (Micro D) (wakeupLoop waker queue l n x).2 := by
  induction l generalizing n x with
  | nil => exact write h hi hi fun _ => rfl
  | cons t l ih =>
    have hpop : Follows (Micro D) (x.assign (State.setQueue queue l)) := write h hi hi fun _ => rfl
    simp only [ThreadTrace.wakeupLoop]
    split
    · exact hpop
    · exact ih _ (write hpop hi hi fun _ => rfl) hi

theorem follows_threadWakeup (h : Follows (Micro D) x) (waker : Waker) (queue : WaitQueue) (all : ℤ) :
    Follows (Micro D) (threadWakeup waker queue all x).2 := by
  have hoff := quiet_interruptsSet h false
  simp only [ThreadTrace.threadWakeup]
  split
  · exact quiet_interruptsSet hoff _
  · rename_i t rest _
    have hpop : Follows (Micro D) ((x.interruptsSet false).assign (State.setQueue queue rest)) :=
      write hoff rfl rfl fun _ => rfl
    have hpush : Follows (Micro D) (((x.interruptsSet false).assign (State.setQueue queue rest)).assign
        fun s => addToTail t (s.record (.woken ((x.interruptsSet false).now.inst t) queue waker))) :=
      write hpop rfl rfl fun _ => rfl
    split
    · split
      · exact quiet_interruptsSet hpush _
      · exact quiet_interruptsSet (follows_wakeupLoop waker queue rest 1 hpush rfl) _
    · exact quiet_interruptsSet hpush _

theorem threadWakeup_interrupts_now (waker : Waker) (queue : WaitQueue) (all : ℤ) (x : Trace s₀) :
    (threadWakeup waker queue all x).2.now.interrupts = x.now.interrupts := by
  have hw := congrArg Prod.snd (threadWakeup_now x waker queue all)
  exact (congrArg State.interrupts hw).trans (threadWakeup_interrupts waker queue all x.now)

theorem follows_freeStack {i : Tid} (h : Follows (Micro D) x) (hi : 1 ≤ i) (hd : D → Idle x.now) :
    Follows (Micro D) (freeStack i x) := by
  simp only [freeStack]
  split
  · rename_i hc
    refine follows_assign.mpr ⟨⟨.inl { SameShared.refl x.now with tState := fun t => ?_ },
      fun hD j hj => ?_⟩,h⟩
    · by_cases ht : t = i <;> simp [State.modify,ht]
    · have hji : j = i := by
        by_contra hne
        have hj₂ := hj.2
        simp only [State.modify,hne,if_false] at hj₂
        rw [hj.1] at hj₂
        cases hj₂
      subst hji
      exact (hd hD).unused j ⟨hi,hc⟩
  · exact h

theorem idle_freeStack {i : Tid} (h : Idle x.now) : Idle (freeStack i x).now := by
  rw [freeStack_now]
  refine { h with unused := fun j hj => h.unused j ⟨hj.1,?_⟩ }
  obtain ⟨-,h₁,h₂⟩ := hj
  simp only [swept] at h₁ h₂
  split at h₁
  · simp at h₁
  · rename_i hc
    simp only [hc,if_false] at h₂
    exact ⟨h₁,h₂⟩

theorem follows_freeTCBStacks (h : Follows (Micro D) x) (hd : D → Idle x.now) :
    Follows (Micro D) (freeTCBStacks x) := by
  have hall : ∀ (l : List Tid) (x : Trace s₀), (∀ i ∈ l, 1 ≤ i) → Follows (Micro D) x → (D → Idle x.now) →
      Follows (Micro D) (l.foldl (fun x i => freeStack i x) x) := by
    intro l
    induction l with
    | nil => exact fun _ _ h _ => h
    | cons i l ih =>
      intro x hl h hd
      exact ih _ (fun j hj => hl j (List.mem_cons_of_mem i hj))
        (follows_freeStack h (hl i List.mem_cons_self) hd) fun hD => idle_freeStack (hd hD)
  exact hall initialThreadIds x (fun i hi => (mem_available.mp hi).1) h hd

theorem follows_freeWithInterruptsOff (h : Follows (Micro D) x) (hd : D → Idle x.now) :
    Follows (Micro D) (freeWithInterruptsOff x) :=
  quiet_interruptsSet (follows_freeTCBStacks (quiet_interruptsSet h false) fun hD => { hd hD with }) _

theorem follows_switchTo (h : Follows (Micro D) x) (hi : x.now.interrupts = false) (n : Tid) :
    Follows (Micro D) (switchTo n x) := by
  have hcur : Follows (Micro D) (x.assign fun s => { s with currentThreadId := n }) :=
    write h hi hi fun _ => rfl
  have hrun := write (f := State.modify n fun t => { t with tState := .running }) hcur hi hi fun t => by
    by_cases ht : t = n <;> simp [State.modify,ht]
  exact quiet (f := setcontext n) hrun ⟨rfl,rfl,rfl,rfl,fun _ => rfl⟩ fun _ => rfl

theorem follows_exiting (h : Follows (Micro D) x) (marked : Bool) :
    Follows (Micro D) (exiting marked x) ∧ (exiting marked x).now.interrupts = false := by
  have hoff := quiet_interruptsSet h false
  have hmark := write (f := State.modify x.now.currentThreadId fun t =>
    { t with
      mycontext := ⟨[],false⟩
      tState := .notAssigned
      killOnNextRun := false
      waitQueue := none }) hoff rfl rfl fun t => by
    by_cases ht : t = x.now.currentThreadId <;> simp [State.modify,ht]
  have hrec := quiet_record hmark fun s => .exited s.self marked
  have hwake := follows_threadWakeup hrec .threadExit (.tWait x.now.currentThreadId) 1
  have hi := threadWakeup_interrupts_now .threadExit (.tWait x.now.currentThreadId) 1
    (((x.interruptsSet false).assign (State.modify x.now.currentThreadId fun t =>
      { t with
        mycontext := ⟨[],false⟩
        tState := .notAssigned
        killOnNextRun := false
        waitQueue := none })).assign fun s => s.record (.exited s.self marked))
  exact ⟨write hwake hi hi fun _ => rfl,hi⟩

/-- The stack of the last thread is not freed. -/
theorem idle_exited {s : State} (h : Idle s) (marked : Bool)
    (hc : s.currentThreadId = 0 ∨ s.tcb.stackToFree = false)
    (hl : s.readyQueue ++ s.waitQueues (.tWait s.currentThreadId) = []) : Idle (exited marked s) where
  unused i hr := by
    obtain ⟨hi,hs,hn⟩ := hr
    have hne : i ≠ s.currentThreadId := by
      rintro rfl
      rcases hc with hc | hc
      · rw [hc] at hi
        exact absurd hi (by decide)
      · simp only [exited,if_true] at hs
        exact absurd (hc.symm.trans hs) (by simp)
    simp only [exited,hne,if_false] at hs hn
    obtain ⟨-,-,hw⟩ := h.unused i ⟨hi,hs,hn⟩
    refine ⟨hne,?_,fun q hq => ?_⟩
    · simp only [exited]
      rw [hl]
      simp
    · simp only [exited] at hq
      split at hq
      · simp at hq
      · exact hw q hq
  ready t ht := by
    simp only [exited] at ht
    rw [hl] at ht
    simp at ht
  waits q t ht := by
    simp only [exited] at ht
    split at ht
    · simp at ht
    · exact h.waits q t ht

theorem removeNextReadyThread_none {s : State} (h : ∀ t ∈ s.readyQueue, t ≠ -1)
    (hn : (removeNextReadyThread s).1 = -1) : s.readyQueue = [] ∧ (removeNextReadyThread s).2 = s := by
  cases hr : s.readyQueue with
  | nil => simp [removeNextReadyThread,hr]
  | cons t rest =>
    simp only [removeNextReadyThread,hr] at hn
    exact absurd hn (h t (by simp [hr]))

theorem removeNextReadyThread_kept (s : State) :
    (removeNextReadyThread s).2.interrupts = s.interrupts ∧ (removeNextReadyThread s).2.TCBs = s.TCBs := by
  simp only [removeNextReadyThread]
  split <;> exact ⟨rfl,rfl⟩

theorem follows_threadExit (h : Follows (Micro D) x) (hd : D → Idle x.now ∧ ¬ EndsLast x.now)
    (marked : Bool) : Follows (Micro D) (threadExit marked x) := by
  obtain ⟨hex,hi⟩ := follows_exiting h marked
  have hrm := removeNextReadyThread_kept (exiting marked x).now
  have htake := write (f := fun s => (removeNextReadyThread s).2) hex hi (hrm.1.trans hi)
    fun i => by rw [hrm.2]
  simp only [ThreadTrace.threadExit]
  split
  · rename_i hnone
    have hfree := follows_freeTCBStacks htake fun hD => by
      obtain ⟨hidle,hlast⟩ := hd hD
      have he : (exiting marked x).now = exited marked x.now := exiting_eq x (hidle.waits _)
      rw [he] at hnone
      have hready : ∀ t ∈ (exited marked x.now).readyQueue, t ≠ -1 := by
        intro t ht
        rcases List.mem_append.mp ht with ht | ht
        · exact hidle.ready t ht
        · exact hidle.waits _ t ht
      obtain ⟨hl,hsame⟩ := removeNextReadyThread_none hready hnone
      rw [assign_now,he,hsame]
      have hc : x.now.currentThreadId = 0 ∨ x.now.tcb.stackToFree = false := by
        by_contra hc
        rw [not_or] at hc
        exact hlast ⟨hc.1,by simpa using hc.2,hl⟩
      exact idle_exited hidle marked hc hl
    exact quiet_status (quiet_interruptsSet hfree _) .exited
  · exact follows_switchTo htake (hrm.1.trans hi) _

theorem follows_yieldingBlock (h : Follows (Micro D) x) (hi : x.now.interrupts = false) (n o : Tid) :
    Follows (Micro D) (yieldingBlock n o x) := by
  have hready := write (f := State.modify x.now.currentThreadId fun t => { t with tState := .ready }) h hi hi
    fun t => by by_cases ht : t = x.now.currentThreadId <;> simp [State.modify,ht]
  simp only [ThreadTrace.yieldingBlock]
  split
  · rename_i queue _
    have hpush := write (f := fun s => (pushThreadToWait queue x.now.currentThreadId s).record
      (.slept s.self queue)) hready hi hi fun _ => rfl
    have hclear := quiet_modify hpush x.now.currentThreadId (f := fun t => { t with waitQueue := none })
      (fun _ => rfl) fun _ => rfl
    exact follows_switchTo (quiet_modify hclear o (f := fun t => { t with setcontextCalled := true })
      (fun _ => rfl) fun _ => rfl) hi n
  · have htail := write (f := addToTail x.now.currentThreadId) hready hi hi fun _ => rfl
    exact follows_switchTo (quiet_modify htail o (f := fun t => { t with setcontextCalled := true })
      (fun _ => rfl) fun _ => rfl) hi n

/-! ### Yield and sleep -/

theorem idle_freed {s : State} (h : Idle s) : Idle (ThreadModel.freeTCBStacks s) := by
  refine { h with unused := fun j hj => h.unused j ⟨hj.1,?_⟩ }
  obtain ⟨-,h₁,h₂⟩ := hj
  simp only [ThreadModel.freeTCBStacks] at h₁ h₂
  split at h₁
  · simp at h₁
  · rename_i hc
    simp only [hc,if_false] at h₂
    exact ⟨h₁,h₂⟩

theorem endsLast_of_freed {s : State} (h : EndsLast (ThreadModel.freeTCBStacks s)) : EndsLast s := by
  obtain ⟨h₁,h₂,h₃⟩ := h
  refine ⟨h₁,?_,h₃⟩
  simp only [ThreadModel.freeTCBStacks,State.tcb] at h₂
  split at h₂
  · simp at h₂
  · exact h₂

/-- A thread that finds itself killed ends. -/
def Survives (s : State) : Prop := Idle s ∧ (s.tcb.killOnNextRun = true → ¬ EndsLast s)

theorem follows_afterGetcontext (h : Follows (Micro D) x) (hi : x.now.interrupts = false)
    (hd : D → Survives x.now) (n o tk : Tid) (e : Bool) :
    Follows (Micro D) (afterGetcontext n o tk e x) := by
  have hfree := follows_freeWithInterruptsOff h fun hD => (hd hD).1
  have hnow := freeWithInterruptsOff_now x
  obtain ⟨b,hb⟩ := freeTCBStacks_TCBs x.now x.now.currentThreadId
  have htcb : (freeWithInterruptsOff x).now.tcb = { x.now.tcb with stackToFree := b } := by
    rw [hnow]
    exact hb
  have hint : (freeWithInterruptsOff x).now.interrupts = false := by
    rw [hnow]
    exact hi
  simp only [ThreadTrace.afterGetcontext]
  split
  · rename_i hk
    refine follows_threadExit hfree (fun hD => ?_) true
    rw [htcb] at hk
    rw [hnow]
    exact ⟨idle_freed (hd hD).1,fun he => (hd hD).2 hk (endsLast_of_freed he)⟩
  split
  · exact follows_yieldingBlock hfree hint n o
  · exact follows_leave (quiet_modify_current hfree (f := fun _ t => { t with setcontextCalled := false })
      (fun _ _ => rfl) fun _ _ => rfl) e tk

theorem follows_yieldTo (h : Follows (Micro D) x) (hi : x.now.interrupts = false)
    (hd : D → Survives x.now) (n : Tid) (e : Bool) : Follows (Micro D) (yieldTo n e x) := by
  have hget := quiet (f := fun s => s.modify x.now.currentThreadId fun t => { t with
    mycontext := ⟨.yielded n x.now.currentThreadId n e::s.frames,s.interrupts⟩ }) h
    { SameShared.refl _ with tState := fun t => by simp only [State.modify]; split <;> rfl }
    fun t => by simp only [State.modify]; split <;> rfl
  simp only [ThreadTrace.yieldTo]
  refine follows_afterGetcontext hget hi (fun hD => ?_) n _ n e
  obtain ⟨hidle,hlast⟩ := hd hD
  refine ⟨{ hidle with unused := fun i hi => hidle.unused i ⟨hi.1,?_⟩ },fun hk he => hlast ?_ ⟨he.1,?_,he.2.2⟩⟩
  · have hr := hi.2
    simp only [assign_now,State.modify] at hr
    split at hr <;> exact hr
  · simpa [State.tcb,State.modify] using hk
  · simpa [State.tcb,State.modify] using he.2.1

/-- Taking a thread out of the ready queue leaves the other variables. -/
theorem takeReady_eq {w : Tid} {s : State} (h : (takeReady w s).1 ≠ -1) : ∃ n ∈ s.readyQueue,
    (takeReady w s).2 = { s with readyQueue := s.readyQueue.erase n } := by
  simp only [takeReady] at h ⊢
  split at h
  · rename_i hw
    simp only [hw,if_true]
    cases hr : s.readyQueue with
    | nil => simp [removeNextReadyThread,hr] at h
    | cons t rest => exact ⟨t,List.mem_cons_self,by simp [removeNextReadyThread,hr]⟩
  · rename_i hw
    simp only [hw,if_false]
    simp only [removeFromReadyQueue] at h ⊢
    split at h
    · rename_i hm
      exact ⟨w,hm,by simp [hm]⟩
    · exact absurd rfl h

theorem follows_threadYield (h : Follows (Micro D) x) (hd : D → Idle x.now ∧
    (x.now.tcb.killOnNextRun = true → ∀ n ∈ x.now.readyQueue,
      ¬ EndsLast { x.now with readyQueue := x.now.readyQueue.erase n })) (w : Tid) :
    Follows (Micro D) (threadYield w x) := by
  have hoff := quiet_interruptsSet h false
  simp only [ThreadTrace.threadYield]
  split
  · exact follows_leave hoff _ _
  split
  · exact follows_leave hoff _ _
  split
  · exact follows_leave hoff _ _
  split
  · exact follows_leave hoff _ _
  split
  · exact follows_leave hoff _ _
  · rename_i hfound
    obtain ⟨n,hn,he⟩ := takeReady_eq hfound
    have hi : ((x.interruptsSet false).assign fun s => (takeReady w s).2).now.interrupts = false := by
      rw [assign_now,he]
      rfl
    refine follows_yieldTo (write hoff rfl hi fun i => by rw [he]) hi (fun hD => ?_) _ _
    rw [assign_now,he]
    obtain ⟨hidle,hlast⟩ := hd hD
    refine ⟨⟨fun i hi => ?_,fun t ht => hidle.ready t (List.mem_of_mem_erase ht),hidle.waits⟩,
      fun hk => hlast hk n hn⟩
    obtain ⟨h₁,h₂,h₃⟩ := hidle.unused i hi
    exact ⟨h₁,fun hm => h₂ (List.mem_of_mem_erase hm),h₃⟩

/-- The running thread has not been killed. -/
def Unmarked (s : State) : Prop := Idle s ∧ s.tcb.killOnNextRun = false

theorem Unmarked.yields {s : State} (h : Unmarked s) : Idle s ∧
    (s.tcb.killOnNextRun = true → ∀ n ∈ s.readyQueue,
      ¬ EndsLast { s with readyQueue := s.readyQueue.erase n }) :=
  ⟨h.1,fun hk => absurd (h.2.symm.trans hk) (by simp)⟩

theorem Unmarked.modify {s : State} (h : Unmarked s) (t : Tid) {f : Thread → Thread}
    (hs : ∀ th, (f th).tState = th.tState) (hf : ∀ th, (f th).stackToFree = th.stackToFree)
    (hk : ∀ th, (f th).killOnNextRun = th.killOnNextRun) : Unmarked (s.modify t f) := by
  refine ⟨{ h.1 with unused := fun i hi => h.1.unused i ⟨hi.1,?_⟩ },?_⟩
  · have hr := hi.2
    by_cases hit : i = t
    · subst hit
      simpa [State.modify,hs,hf] using hr
    · simpa [State.modify,hit] using hr
  · have := h.2
    by_cases hc : s.currentThreadId = t
    · subst hc
      simpa [State.modify,State.tcb,hk] using this
    · simpa [State.modify,State.tcb,hc] using this

theorem follows_threadSleep (h : Follows (Micro D) x) (hd : D → Unmarked x.now) (q : Option WaitQueue) :
    Follows (Micro D) (threadSleep q x) := by
  have hoff := quiet_interruptsSet h false
  simp only [ThreadTrace.threadSleep]
  split
  · exact follows_leave hoff _ _
  · rename_i queue
    split
    · exact follows_leave hoff _ _
    · have hset := quiet_modify_current hoff (f := fun _ t => { t with waitQueue := some queue })
        (fun _ _ => rfl) fun _ _ => rfl
      refine follows_threadYield (quiet_frames hset fun s => .sleep x.now.interrupts::s.frames)
        (fun hD => ?_) _
      have hu := (hd hD).modify x.now.currentThreadId (f := fun t => { t with waitQueue := some queue })
        (fun _ => rfl) (fun _ => rfl) fun _ => rfl
      exact Unmarked.yields ⟨{ hu.1 with },hu.2⟩

/-! ### Calls -/

theorem follows_createThread {id : Tid} (h : Follows (Micro D) x) (hi : x.now.interrupts = false)
    (hd : D → Unused x.now id) (stack e : Bool) : Follows (Micro D) (createThread id stack e x) := by
  let y := if (x.now.TCBs id).stackToFree then
    x.assign (State.modify id fun t => { t with stackToFree := false }) else x
  have hy : Follows (Micro D) y ∧ y.now.interrupts = false ∧ (y.now.TCBs id).stackToFree = false := by
    by_cases hs : (x.now.TCBs id).stackToFree = true
    · have hy : y = x.assign (State.modify id fun t => { t with stackToFree := false }) := if_pos hs
      rw [hy]
      refine ⟨follows_assign.mpr ⟨⟨.inr ⟨hi,hi⟩,fun hD j hj => ?_⟩,h⟩,hi,by simp [State.modify]⟩
      have hj : j = id := by
        by_contra hne
        have hj₂ := hj.2
        simp only [State.modify,hne,if_false] at hj₂
        rw [hj.1] at hj₂
        cases hj₂
      rw [hj]
      exact hd hD
    · have hy : y = x := if_neg hs
      rw [hy]
      exact ⟨h,hi,by simpa using hs⟩
  obtain ⟨hf,hyi,hys⟩ := hy
  have hmalloc : Follows (Micro D) (y.assign (State.modify id fun t => { t with stackToFree := stack })) := by
    refine follows_assign.mpr ⟨⟨.inr ⟨hyi,hyi⟩,fun _ => freesUnused_of_kept fun j hj => ?_⟩,hf⟩
    have hne : j ≠ id := by
      rintro rfl
      rw [hys] at hj
      cases hj
    simpa [State.modify,hne] using hj
  change Follows (Micro D) (if stack = false then leave e threadNomemory _ else _)
  split
  · exact follows_leave hmalloc _ _
  · have hready := write (f := State.modify id fun t =>
      { t with
        mycontext := ⟨[.stubEntry],false⟩
        tState := .ready
        generation := t.generation+1 }) hmalloc hyi hyi fun t => by
      by_cases ht : t = id <;> simp [State.modify,ht]
    exact follows_leave (write (f := fun s => addToTail id (s.record (.created (s.inst id)))) hready
      hyi hyi fun _ => rfl) _ _

theorem removeFromHead_eq (s : State) : ∃ l, (removeFromHead s).2 = { s with availableThreadIds := l } := by
  simp only [removeFromHead]
  split
  · exact ⟨s.availableThreadIds,rfl⟩
  · exact ⟨_,rfl⟩

theorem removeFromHead_mem {s : State} (h : (removeFromHead s).1 ≠ -1) :
    (removeFromHead s).1 ∈ s.availableThreadIds := by
  cases ha : s.availableThreadIds with
  | nil => simp [removeFromHead,ha] at h
  | cons t rest => simp [removeFromHead,ha]

theorem follows_threadCreate (h : Follows (Micro D) x)
    (hd : D → ∀ t ∈ x.now.availableThreadIds, Unused x.now t) (stack : Bool) :
    Follows (Micro D) (threadCreate stack x) := by
  have hget := quiet_modify_current (quiet_interruptsSet h false)
    (f := fun s t => { t with mycontext := ⟨s.frames,false⟩ }) (fun _ _ => rfl) fun _ _ => rfl
  let y := (x.interruptsSet false).assign fun s =>
    s.modify s.currentThreadId fun t => { t with mycontext := ⟨s.frames,false⟩ }
  obtain ⟨l,hl⟩ := removeFromHead_eq y.now
  have hi : (removeFromHead y.now).2.interrupts = false := by
    rw [hl]
    rfl
  have htake : Follows (Micro D) (y.assign fun s => (removeFromHead s).2) :=
    write hget rfl hi fun i => by rw [hl]
  change Follows (Micro D) (if (removeFromHead y.now).1 = -1 then leave x.now.interrupts threadNomore _
    else createThread (removeFromHead y.now).1 stack x.now.interrupts _)
  split
  · exact follows_leave htake _ _
  · rename_i hid
    refine follows_createThread htake hi (fun hD => ?_) stack _
    rw [assign_now,hl]
    exact hd hD _ (removeFromHead_mem hid)

theorem follows_threadKill (h : Follows (Micro D) x) (tid : Tid) :
    Follows (Micro D) (threadKill tid x) := by
  have hoff := quiet_interruptsSet h false
  simp only [ThreadTrace.threadKill]
  split
  · exact follows_leave hoff _ _
  split
  · exact follows_leave hoff _ _
  split
  · exact quiet_status (quiet_interruptsSet hoff _) _
  split
  · exact follows_leave hoff _ _
  · refine quiet_frames (quiet_interruptsSet (quiet hoff ?_ fun i => ?_) _) fun s => .killed tid::s.frames
    · refine { SameShared.refl _ with tState := fun t => ?_ }
      by_cases ht : t = tid <;> simp [State.modify,State.record,ht]
    · by_cases ht : i = tid <;> simp [State.modify,State.record,ht]

theorem follows_threadWait (h : Follows (Micro D) x) (hd : D → Unmarked x.now) (tid : Tid) :
    Follows (Micro D) (threadWait tid x) := by
  have hoff := quiet_interruptsSet h false
  simp only [ThreadTrace.threadWait]
  split
  · exact follows_leave hoff _ _
  split
  · exact quiet_status (quiet_interruptsSet hoff _) _
  split
  · exact follows_leave hoff _ _
  · exact follows_threadSleep (quiet_frames hoff fun s => .wait tid x.now.interrupts::s.frames)
      (fun hD => ⟨{ (hd hD).1 with },(hd hD).2⟩) _

theorem follows_acquireLoop (h : Follows (Micro D) x) (hd : D → Unmarked x.now) (lock : ℕ) (e : Bool) :
    Follows (Micro D) (acquireLoop lock e x) := by
  simp only [ThreadTrace.acquireLoop]
  split
  · exact quiet_status h _
  split
  · exact follows_leave (quiet (f := fun s =>
      (s.setLock lock (some ⟨true,s.currentThreadId⟩)).record (.acquired s.self lock)) h
      ⟨rfl,rfl,rfl,rfl,fun _ => rfl⟩ fun _ => rfl) _ _
  · exact follows_threadSleep (quiet_frames h fun s => .acquire lock e::s.frames)
      (fun hD => ⟨{ (hd hD).1 with },(hd hD).2⟩) _

theorem follows_lockAcquire (h : Follows (Micro D) x) (hd : D → Unmarked x.now) (lock : ℕ) :
    Follows (Micro D) (lockAcquire lock x) :=
  follows_acquireLoop (quiet_interruptsSet h false) (fun hD => ⟨{ (hd hD).1 with },(hd hD).2⟩) lock _

theorem follows_releaseLock (h : Follows (Micro D) x) (lock : ℕ) :
    Follows (Micro D) (releaseLock lock x) := by
  have hoff := quiet_interruptsSet h false
  simp only [ThreadTrace.releaseLock]
  split
  · have hwake := follows_threadWakeup (quiet_record hoff fun s => .passed s.self lock) .lockRelease
      (.waitOnLock lock) 1
    exact quiet_interruptsSet (quiet (f := fun s =>
      (s.setLock lock (some ⟨false,-1⟩)).record (.released s.self lock)) hwake
      ⟨rfl,rfl,rfl,rfl,fun _ => rfl⟩ fun _ => rfl) _
  · exact quiet_interruptsSet hoff _

theorem follows_withLock (h : Follows (Micro D) x) {lock : ℕ} {f : Trace s₀ → Trace s₀}
    (hf : Follows (Micro D) (f x)) : Follows (Micro D) (withLock lock f x) := by
  simp only [ThreadTrace.withLock]
  split
  · exact hf
  · exact quiet_status h _

theorem follows_withQueue (h : Follows (Micro D) x) {queue : WaitQueue} {f : Trace s₀ → Trace s₀}
    (hf : Follows (Micro D) (f x)) : Follows (Micro D) (withQueue queue f x) := by
  simp only [ThreadTrace.withQueue]
  split
  · exact quiet_status h _
  · exact hf

theorem follows_cvWakeup (h : Follows (Micro D) x) (waker : Waker) (all : ℤ) (cv lock : ℕ) :
    Follows (Micro D) (cvWakeup waker all cv lock x) := by
  have hoff := quiet_interruptsSet h false
  refine follows_withQueue h (follows_withLock h ?_)
  dsimp only
  split
  · exact follows_leave (follows_threadWakeup (quiet_record hoff fun s => .passed s.self lock) waker
      (.waitOnCv cv) all) _ _
  · exact follows_leave hoff _ _

/-- The threads that are woken up are in use. -/
theorem Idle.threadWakeup {s : State} (h : Idle s) (waker : Waker) (queue : WaitQueue) (all : ℤ) :
    Idle (ThreadModel.threadWakeup waker queue all s).2 ∧
      (ThreadModel.threadWakeup waker queue all s).2.tcb = s.tcb := by
  obtain ⟨l,rest,hq,-,-,-,hs⟩ := threadWakeup_eq waker queue all s (h.waits queue)
  have hl : ∀ t ∈ l, t ∈ s.waitQueues queue := fun t ht => by rw [hq]; exact List.mem_append_left rest ht
  have hrest : ∀ t ∈ rest, t ∈ s.waitQueues queue := fun t ht => by
    rw [hq]; exact List.mem_append_right l ht
  rw [hs]
  refine ⟨⟨fun i hi => ?_,fun t ht => ?_,fun q t ht => ?_⟩,rfl⟩
  · obtain ⟨h₁,h₂,h₃⟩ := h.unused i hi
    refine ⟨h₁,fun hm => ?_,fun q hm => ?_⟩
    · rcases List.mem_append.mp hm with hm | hm
      · exact h₂ hm
      · exact h₃ queue (hl i hm)
    · simp only at hm
      split at hm
      · exact h₃ queue (hrest i hm)
      · exact h₃ q hm
  · rcases List.mem_append.mp ht with ht | ht
    · exact h.ready t ht
    · exact h.waits queue t (hl t ht)
  · simp only at ht
    split at ht
    · exact h.waits queue t (hrest t ht)
    · exact h.waits q t ht

theorem Unmarked.releaseLock {s : State} (h : Unmarked s) (lock : ℕ) :
    Unmarked (ThreadModel.releaseLock lock s) := by
  simp only [ThreadModel.releaseLock]
  split
  · have hp : Idle (s.record (.passed s.self lock)) := { h.1 with }
    obtain ⟨hidle,htcb⟩ := hp.threadWakeup .lockRelease (.waitOnLock lock) 1
    refine ⟨{ hidle with },?_⟩
    exact (congrArg Thread.killOnNextRun htcb).trans h.2
  · exact h

theorem follows_cvWait (h : Follows (Micro D) x) (hd : D → Unmarked x.now) (cv lock : ℕ) :
    Follows (Micro D) (cvWait cv lock x) := by
  have hoff := quiet_interruptsSet h false
  refine follows_withQueue h (follows_withLock h ?_)
  dsimp only
  split
  · have hpass : Follows (Micro D) ((x.interruptsSet false).assign fun s =>
        { s.record (.passed s.self lock) with frames := .cvSlept cv lock x.now.interrupts::s.frames }) :=
      quiet hoff ⟨rfl,rfl,rfl,rfl,fun _ => rfl⟩ fun _ => rfl
    refine follows_threadSleep (follows_releaseLock hpass lock) (fun hD => ?_) _
    rw [releaseLock_now]
    refine Unmarked.releaseLock ?_ lock
    exact ⟨{ (hd hD).1 with },(hd hD).2⟩
  · exact follows_leave hoff _ _

/-- `wait_queue_destroy` has not touched the queue when it reaches its loop. -/
theorem follows_waitQueueDestroy (h : Follows (Micro D) x) (queue : WaitQueue) :
    Follows (Micro D) (waitQueueDestroy queue x) := by
  refine quiet h ?_ fun i => ?_
  · simp only [ThreadModel.waitQueueDestroy,ThreadModel.withQueue]
    split <;> exact ⟨rfl,rfl,rfl,rfl,fun _ => rfl⟩
  · simp only [ThreadModel.waitQueueDestroy,ThreadModel.withQueue]
    split <;> rfl

theorem follows_lockDestroy (h : Follows (Micro D) x) (lock : ℕ) :
    Follows (Micro D) (lockDestroy lock x) := by
  have hd := follows_waitQueueDestroy h (.waitOnLock lock)
  refine follows_assign.mpr ⟨?_,h⟩
  simp only [ThreadModel.lockDestroy]
  split
  · exact (follows_assign.mp (quiet_status h .dangling)).1
  split
  · exact (follows_assign.mp (quiet_status h .aborted)).1
  · exact (follows_assign.mp hd).1

theorem follows_doCall (h : Follows (Micro D) x) (hd : D → Unmarked x.now)
    (ha : D → ∀ t ∈ x.now.availableThreadIds, Unused x.now t) (c : Call)
    (hlast : c = .threadExit → D → ¬ EndsLast x.now) : Follows (Micro D) (doCall c x) := by
  have hoff := quiet_interruptsSet h false
  cases c with
  | threadId => exact follows_leave hoff _ _
  | threadCreate stack => exact follows_threadCreate h ha stack
  | threadYield w => exact follows_threadYield h (fun hD => (hd hD).yields) w
  | threadExit => exact follows_threadExit h (fun hD => ⟨(hd hD).1,hlast rfl hD⟩) false
  | threadKill tid => exact follows_threadKill h tid
  | threadSleep q =>
    cases q with
    | none => exact follows_threadSleep h hd none
    | some n => exact follows_withQueue h (follows_threadSleep h hd _)
  | threadWakeup q all =>
    cases q with
    | none => exact follows_leave hoff _ _
    | some n =>
      exact follows_withQueue (f := fun x =>
        let r := ThreadTrace.threadWakeup .threadWakeup (.created n) all x
        r.2.assign (return_ r.1)) h (quiet_return (follows_threadWakeup h _ _ _) _)
  | threadWait tid => exact follows_threadWait h hd tid
  | lockAcquire lock => exact follows_lockAcquire h hd lock
  | lockRelease lock => exact follows_withLock h (quiet_return (follows_releaseLock h lock) 0)
  | lockDestroy lock => exact follows_lockDestroy h lock
  | cvDestroy cv => exact follows_waitQueueDestroy h _
  | waitQueueDestroy q =>
    cases q with
    | none => exact quiet_status h _
    | some n => exact follows_waitQueueDestroy h _
  | cvWait cv lock => exact follows_cvWait h hd cv lock
  | cvSignal cv lock => exact follows_cvWakeup h _ _ cv lock
  | cvBroadcast cv lock => exact follows_cvWakeup h _ _ cv lock

end Pass

/-! ### Steps -/

section Steps

variable {D : Prop} {s : State} {x : Trace s}

/-- The step runs `thread_exit`. -/
def exits (s : State) : Action → Bool
  | .call c => decide (c = .threadExit)
  | .run =>
    match s.frames with
    | .stubReturn::_ => true
    | .stubKillCheck::_ => s.tcb.killOnNextRun
    | .yielded _ _ _ _::_ => s.tcb.killOnNextRun
    | _ => false
  | .timer => s.tcb.killOnNextRun && !s.readyQueue.isEmpty
  | _ => false

/-- The ready queue that `thread_exit` finds: the timer handler takes a thread out of it before it
sees the kill mark. -/
def readyAtExit (s : State) : Action → List Tid
  | .timer => s.readyQueue.tail
  | _ => s.readyQueue

/-- The step runs `thread_exit` on an allocated stack, and nobody can run after it. -/
def EndsProcess (s : State) (a : Action) : Prop :=
  exits s a = true ∧ EndsLast { s with readyQueue := readyAtExit s a }

instance (s : State) : Decidable (EndsLast s) := inferInstanceAs (Decidable (_ ∧ _ ∧ _))

instance (s : State) (a : Action) : Decidable (EndsProcess s a) := inferInstanceAs (Decidable (_ ∧ _))

theorem unused_of_notAssigned (h : Inv (view s)) {i : Tid} (hn : (s.TCBs i).tState = .notAssigned) :
    Unused s i := by
  refine ⟨?_,fun hm => ?_,fun q hm => ?_⟩
  · rintro rfl
    have hr : (s.TCBs s.currentThreadId).tState = .running := (h.running s.currentThreadId).mpr rfl
    rw [hn] at hr
    cases hr
  · have hr : (s.TCBs i).tState = .ready := h.ready i hm
    rw [hn] at hr
    cases hr
  · have hr : (s.TCBs i).tState = .ready := h.waiting q i hm
    rw [hn] at hr
    cases hr

theorem idle_of_inv (h : Inv (view s)) : Idle s where
  unused _ hr := unused_of_notAssigned h hr.2.2
  ready t ht := by
    rintro rfl
    exact absurd (h.ready_range ht).1 (by decide)
  waits q t ht := by
    rintro rfl
    exact absurd (h.range (.waiting q) _ ht).1 (by decide)

/-- A thread that stands in its own code or in `lock_acquire` has not been killed. -/
theorem unmarked_of_point (h : Inv (view s)) (hh : Here s) (hf : ¬ Unchecked s.frames)
    (he : s.frames ≠ [.stubEntry]) (hy : ∀ n o tk e k, s.frames ≠ .yielded n o tk e::k) : Unmarked s := by
  refine ⟨idle_of_inv h,?_⟩
  cases hh with
  | entry hf' => exact absurd hf' he
  | point _ hk => exact Bool.eq_false_iff.mpr fun hk' => hf (hk hk')
  | midway _ _ hk => exact hk
  | yielded n o tk e k hf' => exact absurd hf' (hy n o tk e k)

theorem follows_resume (hv : Inv (view s)) (hh : Here s) (hx : ThreadTrace.resume s = some x)
    (hd : D → ¬ EndsProcess s .run) :
    (∃ queue, destroyRound s .run = some queue) ∨ Follows (Micro D) x := by
  have hidle := idle_of_inv hv
  have hstart := follows_start (Micro D) s
  simp only [ThreadTrace.resume] at hx
  split at hx
  case h_1 k hf =>
    obtain rfl := Option.some.inj hx
    exact .inr (quiet_frames (quiet_interruptsSet hstart true) _)
  case h_2 k hf =>
    obtain rfl := Option.some.inj hx
    exact .inr (quiet_frames (follows_freeWithInterruptsOff hstart fun _ => hidle) _)
  case h_3 k hf =>
    split at hx
    · rename_i hk
      obtain rfl := Option.some.inj hx
      refine .inr (follows_threadExit hstart (fun hD => ⟨hidle,fun he => hd hD ⟨?_,he⟩⟩) true)
      simpa only [exits,hf] using hk
    · obtain rfl := Option.some.inj hx
      exact .inr (quiet_frames hstart _)
  case h_4 k hf =>
    obtain rfl := Option.some.inj hx
    refine .inr (follows_threadExit hstart (fun hD => ⟨hidle,fun he => hd hD ⟨?_,he⟩⟩) false)
    simp only [exits,hf]
  case h_5 n o tk e k hf =>
    obtain rfl := Option.some.inj hx
    have hi : s.interrupts = false := by
      cases hh with
      | entry hf' => simp [hf] at hf'
      | point hp => rw [hf] at hp; cases hp with | own hb => cases hb
      | midway hm => rw [hf] at hm; cases hm
      | yielded _ _ _ _ _ _ _ hi => exact hi
    refine .inr (follows_afterGetcontext (quiet_frames hstart fun _ => k) hi
      (fun hD => ⟨{ hidle with },fun hk he => hd hD ⟨?_,he⟩⟩) n o tk e)
    simp only [exits,hf]
    exact hk
  case h_6 lock e k hf =>
    obtain rfl := Option.some.inj hx
    have hu := unmarked_of_point hv hh (by simp [hf,Unchecked]) (by simp [hf]) (by simp [hf])
    exact .inr (follows_acquireLoop (quiet_frames hstart fun _ => k)
      (fun _ => ⟨{ hu.1 with },hu.2⟩) lock e)
  case h_7 cv lock e k hf =>
    obtain rfl := Option.some.inj hx
    have hu := unmarked_of_point hv hh (by simp [hf,Unchecked]) (by simp [hf]) (by simp [hf])
    exact .inr (follows_lockAcquire (quiet_frames hstart fun _ => .cvReacquired cv lock e::k)
      (fun _ => ⟨{ hu.1 with },hu.2⟩) lock)
  case h_8 tid k hf =>
    obtain rfl := Option.some.inj hx
    exact .inr (quiet_return (quiet_frames hstart fun _ => k) tid)
  case h_9 queue k hf => exact .inl ⟨queue,by simp only [destroyRound,hf]⟩
  case h_10 queue k hf => exact .inl ⟨queue,by simp only [destroyRound,hf]⟩
  case h_11 => cases hx

theorem follows_traced {a : Action} (hv : Inv (view s)) (hh : Here s) (hx : traced s a = some x)
    (hd : D → ¬ EndsProcess s a) :
    (∃ queue, destroyRound s a = some queue) ∨ Follows (Micro D) x := by
  have hidle := idle_of_inv hv
  have hstart := follows_start (Micro D) s
  simp only [traced] at hx
  split at hx
  · cases hx
  cases a with
  | run => exact follows_resume hv hh hx hd
  | timer =>
    simp only at hx
    split at hx
    · obtain rfl := Option.some.inj hx
      have hsig : Follows (Micro D) ((start s).assign fun s =>
          { s with interrupts := false, frames := .handler::s.frames }) :=
        quiet hstart ⟨rfl,rfl,rfl,rfl,fun _ => rfl⟩ fun _ => rfl
      refine .inr (follows_threadYield hsig (fun hD => ⟨{ hidle with },fun hk n hn he => hd hD ?_⟩) _)
      obtain ⟨hnil,hw⟩ := List.append_eq_nil_iff.mp he.2.2
      have hone : s.readyQueue = [n] :=
        (List.erase_eq_nil_iff.mp hnil).resolve_left (List.ne_nil_of_mem hn)
      have hk' : s.tcb.killOnNextRun = true := hk
      exact ⟨by simp [exits,hk',hone],he.1,he.2.1,List.append_eq_nil_iff.mpr ⟨by simp [readyAtExit,hone],hw⟩⟩
    · cases hx
  | call c =>
    simp only at hx
    split at hx
    · rename_i k hf
      obtain rfl := Option.some.inj hx
      have hu := unmarked_of_point hv hh (by simp [hf,Unchecked]) (by simp [hf]) (by simp [hf])
      have hcall : Follows (Micro D) ((start s).assign fun s =>
          { s.record (.call s.self c s.interrupts) with frames := .call c::.own::k }) :=
        quiet hstart ⟨rfl,rfl,rfl,rfl,fun _ => rfl⟩ fun _ => rfl
      refine .inr (follows_doCall hcall
        (fun _ => ⟨{ hu.1 with },hu.2⟩) (fun _ t ht => unused_of_notAssigned hv (hv.free t ht)) c ?_)
      rintro rfl hD he
      exact hd hD ⟨rfl,he⟩
    · cases hx
  | compute =>
    simp only at hx
    split at hx
    · obtain rfl := Option.some.inj hx
      exact .inr (quiet_record hstart fun s => .own s.self)
    · cases hx
  | interruptsSet e =>
    simp only at hx
    split at hx
    · obtain rfl := Option.some.inj hx
      exact .inr (quiet_interruptsSet (quiet_record hstart fun s => .own s.self) e)
    · cases hx
  | finish =>
    simp only at hx
    split at hx
    · obtain rfl := Option.some.inj hx
      exact .inr (quiet hstart ⟨rfl,rfl,rfl,rfl,fun _ => rfl⟩ fun _ => rfl)
    · cases hx

theorem Follows.mono {R R' : State → State → Prop} (h : ∀ s s', R s s' → R' s s') (hx : Follows R x) :
    Follows R' x :=
  List.IsChain.imp (fun _ _ hr => h _ _ hr) hx

/-- `thread_main` is called with the mask that `thread_stub` has set. -/
theorem main_starts_enabled (h : Reachable anyStep s) {k : List Frame} {s' : State}
    (hf : s.frames = .stubKillCheck::k) (hk : s.tcb.killOnNextRun = false)
    (hst : step s .run = some s') : s'.frames = .own::.stubReturn::k ∧ s'.interrupts = true := by
  have hrun := running_of_step hst
  obtain ⟨-,hc⟩ := sound_control_of_reachable h hrun
  have hst' : s' = { s with frames := .own::.stubReturn::k } := by
    simpa [step,ThreadModel.resume,hrun,hf,hk,eq_comm] using hst
  have hu : Unchecked s.frames := by
    cases hc.here with
    | entry hf' => simp [hf] at hf'
    | point hp _ => rw [hf] at hp ⊢; cases hp with | own hb => cases hb | killCheck => exact .inr rfl
    | midway hm => rw [hf] at hm; cases hm
    | yielded n o tk e k hf' => simp [hf] at hf'
  have hset : settle s.interrupts s.frames = (s.interrupts,s.frames) := by rw [hf]; rfl
  have hm := ((proceeds_of_reachable h).controlled hrun).live.started
  rw [hset] at hm
  rw [hst']
  exact ⟨rfl,hm hu⟩

/-- Every call returns with the mask it was made with, `thread_main` starts with interrupts enabled,
and on the way through a step, other than one of `wait_queue_destroy`, the scheduler's variables change
only while interrupts are disabled. -/
theorem interrupt_discipline (h : Reachable anyStep s) : Always ReturnsMasked s.history ∧
    (∀ k s', s.frames = .stubKillCheck::k → s.tcb.killOnNextRun = false → step s .run = some s' →
      s'.frames = .own::.stubReturn::k ∧ s'.interrupts = true) ∧
    ∀ a s', step s a = some s' → ∃ x, traced s a = some x ∧ x.now = s' ∧
      ((∃ queue, destroyRound s a = some queue) ∨ Follows Guarded x) := by
  refine ⟨(proceeds_of_reachable h).returns,fun k s' hf hk hst => main_starts_enabled h hf hk hst,
    fun a s' hst => ?_⟩
  have hrun := running_of_step hst
  obtain ⟨hs,hc⟩ := sound_control_of_reachable h hrun
  obtain ⟨x,hx,hnow⟩ := Option.map_eq_some_iff.mp ((traced_now s a).trans hst)
  refine ⟨x,hx,hnow,?_⟩
  exact (follows_traced (D := False) hs.toInv hc.here hx False.elim).imp_right
    (Follows.mono fun _ _ hm => hm.1)

end Steps

/-- Thread 1 has been switched to and has enabled interrupts. -/
def beforeMain : State := Transition.final step
  [.call (.threadCreate true),.call (.threadYield 1),.run,.run] threadInit (by decide +kernel)

theorem beforeMain_discipline : beforeMain.frames = [.stubKillCheck] ∧
    Always ReturnsMasked beforeMain.history ∧
    (∀ k s', beforeMain.frames = .stubKillCheck::k → beforeMain.tcb.killOnNextRun = false →
      step beforeMain .run = some s' → s'.frames = .own::.stubReturn::k ∧ s'.interrupts = true) ∧
    ∀ a s', step beforeMain a = some s' → ∃ x, traced beforeMain a = some x ∧ x.now = s' ∧
      ((∃ queue, destroyRound beforeMain a = some queue) ∨ Follows Guarded x) :=
  ⟨by decide +kernel,interrupt_discipline (Transition.reachable_final .init fun _ _ _ => trivial)⟩

end InterruptDiscipline
end OsLabs

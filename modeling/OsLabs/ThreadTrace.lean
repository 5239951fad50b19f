import OsLabs.SchedulerRun

/-!
# The thread package, assignment by assignment

The functions of `threads/thread.c` once more, with every call of `interrupts_set` and every state
that the shared variables pass through. A `Trace` is the present state and the states before it,
newest first; each of them was left by one assignment, one operation on a queue or one
`setcontext`. The last state of a trace is the one that the functions of `ThreadModel` compute.
-/

namespace OsLabs
namespace ThreadTrace

open ThreadModel SchedulerRun

/-- The state with the signal mask that `interrupts_set(enabled)` leaves. -/
def masked (enabled : Bool) (s : State) : State := { s with interrupts := enabled }

theorem masked_masked (a b : Bool) (s : State) : masked a (masked b s) = masked a s := rfl

theorem masked_self (s : State) : masked s.interrupts s = s := rfl

/-- The states that the execution of a step in `s₀` has passed through. -/
structure Trace (s₀ : State) where
  now : State
  past : List State
  begins : (now::past).getLast? = some s₀

variable {s₀ : State}

namespace Trace

def start (s : State) : Trace s := ⟨s,[],rfl⟩

def assign (f : State → State) (x : Trace s₀) : Trace s₀ where
  now := f x.now
  past := x.now::x.past
  begins := List.getLast?_cons_cons.trans x.begins

def interruptsSet (enabled : Bool) : Trace s₀ → Trace s₀ := assign (masked enabled)

/-- Every two states that follow each other are related. -/
def Follows (R : State → State → Prop) (x : Trace s₀) : Prop :=
  List.IsChain (fun new old => R old new) (x.now::x.past)

@[simp] theorem assign_now (f : State → State) (x : Trace s₀) : (x.assign f).now = f x.now := rfl

@[simp] theorem interruptsSet_now (enabled : Bool) (x : Trace s₀) :
    (x.interruptsSet enabled).now = masked enabled x.now := rfl

theorem follows_start (R : State → State → Prop) (s : State) : Follows R (start s) :=
  List.isChain_singleton s

theorem follows_assign {R : State → State → Prop} {f : State → State} {x : Trace s₀} :
    Follows R (x.assign f) ↔ R x.now (f x.now) ∧ Follows R x :=
  List.isChain_cons_cons

end Trace

open Trace

/-! ### Wake-up, exit and context switch -/

def wakeupLoop (waker : Waker) (queue : WaitQueue) : List Tid → ℤ → Trace s₀ → ℤ × Trace s₀
  | [], wokeUp, x => (wokeUp,x.assign (State.setQueue queue []))
  | tidPopped::rest, wokeUp, x =>
    let woken := x.now.inst tidPopped
    let x := x.assign (State.setQueue queue rest)
    if tidPopped = -1 then (wokeUp,x)
    else wakeupLoop waker queue rest (wokeUp+1)
      (x.assign fun s => addToTail tidPopped (s.record (.woken woken queue waker)))

def threadWakeup (waker : Waker) (queue : WaitQueue) (all : ℤ) (x : Trace s₀) : ℤ × Trace s₀ :=
  let enabled := x.now.interrupts
  let x := x.interruptsSet false
  match x.now.waitQueues queue with
  | [] => (0,x.interruptsSet enabled)
  | tidPopped::rest =>
    let woken := x.now.inst tidPopped
    let x := x.assign (State.setQueue queue rest)
    let x := x.assign fun s => addToTail tidPopped (s.record (.woken woken queue waker))
    if all = 1 then
      if tidPopped = -1 then (1,x.interruptsSet enabled)
      else
        let r := wakeupLoop waker queue rest 1 x
        (r.1,r.2.interruptsSet enabled)
    else (1,x.interruptsSet enabled)

/-- One round of the loop of `freeTCBStacks`. -/
def freeStack (i : Tid) (x : Trace s₀) : Trace s₀ :=
  if (x.now.TCBs i).stackToFree = true ∧ (x.now.TCBs i).tState = .notAssigned then
    x.assign (State.modify i fun t => { t with stackToFree := false })
  else x

/-- The slots from 1 to 1023 are those whose identifiers `thread_init` makes available. -/
def freeTCBStacks (x : Trace s₀) : Trace s₀ := initialThreadIds.foldl (fun x i => freeStack i x) x

def switchTo (nextTidToRun : Tid) (x : Trace s₀) : Trace s₀ :=
  ((x.assign fun s => { s with currentThreadId := nextTidToRun }).assign
    (State.modify nextTidToRun fun t => { t with tState := .running })).assign (setcontext nextTidToRun)

/-- `thread_exit` up to the search for the next thread. -/
def exiting (marked : Bool) (x : Trace s₀) : Trace s₀ :=
  let old := x.now.currentThreadId
  let x := x.interruptsSet false
  let x := x.assign (State.modify old fun t =>
    { t with
      mycontext := ⟨[],false⟩
      tState := .notAssigned
      killOnNextRun := false
      waitQueue := none })
  let x := x.assign fun s => s.record (.exited s.self marked)
  let x := (threadWakeup .threadExit (.tWait old) 1 x).2
  x.assign (addToHeadId old)

def threadExit (marked : Bool) (x : Trace s₀) : Trace s₀ :=
  let enabled := x.now.interrupts
  let x := exiting marked x
  let nextTidToRun := (removeNextReadyThread x.now).1
  let x := x.assign fun s => (removeNextReadyThread s).2
  if nextTidToRun = -1 then
    ((freeTCBStacks x).interruptsSet enabled).assign fun s => { s with status := .exited }
  else switchTo nextTidToRun x

/-- Restore the mask and return `v`. -/
def leave (enabled : Bool) (v : ℤ) (x : Trace s₀) : Trace s₀ :=
  (x.interruptsSet enabled).assign (return_ v)

def yieldingBlock (nextTidToRun oldThreadId : Tid) (x : Trace s₀) : Trace s₀ :=
  let old := x.now.currentThreadId
  let x := x.assign (State.modify old fun t => { t with tState := .ready })
  let x := match x.now.tcb.waitQueue with
    | some queue =>
      (x.assign fun s => (pushThreadToWait queue old s).record (.slept s.self queue)).assign
        (State.modify old fun t => { t with waitQueue := none })
    | none => x.assign (addToTail old)
  switchTo nextTidToRun
    (x.assign (State.modify oldThreadId fun t => { t with setcontextCalled := true }))

/-- The part of `threadResponsibilities` that runs with interrupts disabled. -/
def freeWithInterruptsOff (x : Trace s₀) : Trace s₀ :=
  (freeTCBStacks (x.interruptsSet false)).interruptsSet x.now.interrupts

def afterGetcontext (nextTidToRun oldThreadId tookControl : Tid) (enabled : Bool) (x : Trace s₀) : Trace s₀ :=
  let x := freeWithInterruptsOff x
  if x.now.tcb.killOnNextRun then threadExit true x
  else if x.now.tcb.setcontextCalled = false then yieldingBlock nextTidToRun oldThreadId x
  else leave enabled tookControl
    (x.assign fun s => s.modify s.currentThreadId fun t => { t with setcontextCalled := false })

def yieldTo (nextTidToRun : Tid) (enabled : Bool) (x : Trace s₀) : Trace s₀ :=
  let old := x.now.currentThreadId
  let x := x.assign fun s => s.modify old fun t =>
    { t with mycontext := ⟨.yielded nextTidToRun old nextTidToRun enabled::s.frames,s.interrupts⟩ }
  afterGetcontext nextTidToRun old nextTidToRun enabled x

/-- The thread that `thread_yield` takes out of the ready queue. -/
def takeReady (wantTid : Tid) (s : State) : Tid × State :=
  if wantTid = threadAny then removeNextReadyThread s else removeFromReadyQueue wantTid s

def threadYield (wantTid : Tid) (x : Trace s₀) : Trace s₀ :=
  let enabled := x.now.interrupts
  let x := x.interruptsSet false
  if wantTid ≥ threadMaxThreads ∨ wantTid < -7 then leave enabled threadInvalid x
  else if threadSelf = wantTid then leave enabled x.now.currentThreadId x
  else if wantTid = x.now.currentThreadId then leave enabled x.now.currentThreadId x
  else if wantTid ≥ 0 ∧ (x.now.TCBs wantTid).tState = .notAssigned then leave enabled threadInvalid x
  else
    let nextTidToRun := (takeReady wantTid x.now).1
    -- nothing is removed when no thread is found
    if nextTidToRun = -1 then leave enabled threadNone x
    else yieldTo nextTidToRun enabled (x.assign fun s => (takeReady wantTid s).2)

def threadSleep (queue : Option WaitQueue) (x : Trace s₀) : Trace s₀ :=
  let enabled := x.now.interrupts
  let x := x.interruptsSet false
  match queue with
  | none => leave enabled threadInvalid x
  | some queue =>
    match x.now.readyQueue with
    | [] => leave enabled threadNone x
    | nextReadyThread::_ =>
      let x := x.assign fun s => s.modify s.currentThreadId fun t => { t with waitQueue := some queue }
      threadYield nextReadyThread (x.assign fun s => { s with frames := .sleep enabled::s.frames })

/-! ### The calls -/

def threadId (x : Trace s₀) : Trace s₀ :=
  let enabled := x.now.interrupts
  let x := x.interruptsSet false
  leave enabled (if x.now.currentThreadId ≥ 0 then x.now.currentThreadId else threadInvalid) x

/-- `thread_create` after it has taken the identifier. -/
def createThread (id : Tid) (stack enabled : Bool) (x : Trace s₀) : Trace s₀ :=
  let x := if (x.now.TCBs id).stackToFree then
      x.assign (State.modify id fun t => { t with stackToFree := false })
    else x
  let x := x.assign (State.modify id fun t => { t with stackToFree := stack })
  if stack = false then leave enabled threadNomemory x
  else
    let x := x.assign (State.modify id fun t =>
      { t with
        mycontext := ⟨[.stubEntry],false⟩
        tState := .ready
        generation := t.generation+1 })
    leave enabled id (x.assign fun s => addToTail id (s.record (.created (s.inst id))))

def threadCreate (stack : Bool) (x : Trace s₀) : Trace s₀ :=
  let enabled := x.now.interrupts
  let x := x.interruptsSet false
  let x := x.assign fun s => s.modify s.currentThreadId fun t => { t with mycontext := ⟨s.frames,false⟩ }
  let id := (removeFromHead x.now).1
  let x := x.assign fun s => (removeFromHead s).2
  if id = -1 then leave enabled threadNomore x else createThread id stack enabled x

def threadKill (tid : Tid) (x : Trace s₀) : Trace s₀ :=
  let enabled := x.now.interrupts
  let x := x.interruptsSet false
  if tid ≥ 1024 ∨ tid < -7 then leave enabled threadInvalid x
  else if tid = x.now.currentThreadId then leave enabled threadInvalid x
  else if tid < 0 then (x.interruptsSet enabled).assign fun s => { s with status := .undefined }
  else if (x.now.TCBs tid).tState = .notAssigned then leave enabled threadInvalid x
  else
    let x := x.assign fun s =>
      (s.modify tid fun t => { t with killOnNextRun := true }).record (.killed s.self (s.inst tid))
    (x.interruptsSet enabled).assign fun s => { s with frames := .killed tid::s.frames }

def threadWait (tid : Tid) (x : Trace s₀) : Trace s₀ :=
  let enabled := x.now.interrupts
  let x := x.interruptsSet false
  if tid < 0 ∨ tid = x.now.currentThreadId then leave enabled threadInvalid x
  else if tid ≥ threadMaxThreads then
    (x.interruptsSet enabled).assign fun s => { s with status := .undefined }
  else if (x.now.TCBs tid).tState = .notAssigned then leave enabled threadInvalid x
  else threadSleep (some (.tWait tid))
    (x.assign fun s => { s with frames := .wait tid enabled::s.frames })

def acquireLoop (lock : ℕ) (enabled : Bool) (x : Trace s₀) : Trace s₀ :=
  match x.now.locks lock with
  | none => x.assign fun s => { s with status := .dangling }
  | some l =>
    if l.isAcquired = false then
      leave enabled 0 (x.assign fun s =>
        (s.setLock lock (some ⟨true,s.currentThreadId⟩)).record (.acquired s.self lock))
    else threadSleep (some (.waitOnLock lock))
      (x.assign fun s => { s with frames := .acquire lock enabled::s.frames })

def lockAcquire (lock : ℕ) (x : Trace s₀) : Trace s₀ :=
  acquireLoop lock x.now.interrupts (x.interruptsSet false)

def releaseLock (lock : ℕ) (x : Trace s₀) : Trace s₀ :=
  let enabled := x.now.interrupts
  let x := x.interruptsSet false
  if ownsLock lock x.now then
    let x := x.assign fun s => s.record (.passed s.self lock)
    let x := (threadWakeup .lockRelease (.waitOnLock lock) 1 x).2
    (x.assign fun s => (s.setLock lock (some ⟨false,-1⟩)).record (.released s.self lock)).interruptsSet
      enabled
  else x.interruptsSet enabled

def withLock (lock : ℕ) (f : Trace s₀ → Trace s₀) (x : Trace s₀) : Trace s₀ :=
  if (x.now.locks lock).isSome then f x else x.assign fun s => { s with status := .dangling }

def withQueue (queue : WaitQueue) (f : Trace s₀ → Trace s₀) (x : Trace s₀) : Trace s₀ :=
  if x.now.freed queue then x.assign fun s => { s with status := .dangling } else f x

def lockRelease (lock : ℕ) : Trace s₀ → Trace s₀ :=
  withLock lock fun x => (releaseLock lock x).assign (return_ 0)

def cvWait (cv lock : ℕ) : Trace s₀ → Trace s₀ :=
  withQueue (.waitOnCv cv) <| withLock lock fun x =>
    let enabled := x.now.interrupts
    let x := x.interruptsSet false
    if ownsLock lock x.now then
      threadSleep (some (.waitOnCv cv))
        (releaseLock lock (x.assign fun s =>
          { s.record (.passed s.self lock) with frames := .cvSlept cv lock enabled::s.frames }))
    else leave enabled 0 x

def cvWakeup (waker : Waker) (all : ℤ) (cv lock : ℕ) : Trace s₀ → Trace s₀ :=
  withQueue (.waitOnCv cv) <| withLock lock fun x =>
    let enabled := x.now.interrupts
    let x := x.interruptsSet false
    if ownsLock lock x.now then
      leave enabled 0 (threadWakeup waker (.waitOnCv cv) all
        (x.assign fun s => s.record (.passed s.self lock))).2
    else leave enabled 0 x

/-- `wait_queue_destroy` and its callers do not call `interrupts_set`. -/
def waitQueueDestroy (queue : WaitQueue) : Trace s₀ → Trace s₀ := assign (ThreadModel.waitQueueDestroy queue)

def lockDestroy (lock : ℕ) : Trace s₀ → Trace s₀ := assign (ThreadModel.lockDestroy lock)

def destroyLoop (queue : WaitQueue) : Trace s₀ → Trace s₀ := assign (ThreadModel.destroyLoop queue)

def destroyEnd (queue : WaitQueue) : Trace s₀ → Trace s₀ := assign (ThreadModel.destroyEnd queue)

def doCall : Call → Trace s₀ → Trace s₀
  | .threadId => threadId
  | .threadCreate stack => threadCreate stack
  | .threadYield wantTid => threadYield wantTid
  | .threadExit => threadExit false
  | .threadKill tid => threadKill tid
  | .threadSleep none => threadSleep none
  | .threadSleep (some n) => withQueue (.created n) (threadSleep (some (.created n)))
  | .threadWakeup none _ => fun x => leave x.now.interrupts 0 (x.interruptsSet false)
  | .threadWakeup (some n) all => withQueue (.created n) fun x =>
      let r := threadWakeup .threadWakeup (.created n) all x
      r.2.assign (return_ r.1)
  | .threadWait tid => threadWait tid
  | .lockAcquire lock => lockAcquire lock
  | .lockRelease lock => lockRelease lock
  | .lockDestroy lock => lockDestroy lock
  | .cvDestroy cv => waitQueueDestroy (.waitOnCv cv)
  | .waitQueueDestroy none => assign fun s => { s with status := .undefined }
  | .waitQueueDestroy (some n) => waitQueueDestroy (.created n)
  | .cvWait cv lock => cvWait cv lock
  | .cvSignal cv lock => cvWakeup .cvSignal 0 cv lock
  | .cvBroadcast cv lock => cvWakeup .cvBroadcast 1 cv lock

/-! ### Steps -/

def resume (s : State) : Option (Trace s) :=
  let x := start s
  match s.frames with
  | .stubEntry::k =>
    some ((x.interruptsSet true).assign fun s => { s with frames := .stubResponsibilities::k })
  | .stubResponsibilities::k =>
    some ((freeWithInterruptsOff x).assign fun s => { s with frames := .stubKillCheck::k })
  | .stubKillCheck::k =>
    if s.tcb.killOnNextRun then some (threadExit true x)
    else some (x.assign fun s => { s with frames := .own::.stubReturn::k })
  | .stubReturn::_ => some (threadExit false x)
  | .yielded nextTidToRun oldThreadId tookControl enabled::k =>
    some (afterGetcontext nextTidToRun oldThreadId tookControl enabled
      (x.assign fun s => { s with frames := k }))
  | .acquire lock enabled::k => some (acquireLoop lock enabled (x.assign fun s => { s with frames := k }))
  | .cvSlept cv lock enabled::k =>
    some (lockAcquire lock (x.assign fun s => { s with frames := .cvReacquired cv lock enabled::k }))
  | .killed tid::k => some ((x.assign fun s => { s with frames := k }).assign (return_ tid))
  | .destroy queue::k => some (destroyLoop queue (x.assign fun s => { s with frames := k }))
  | .destroyed queue::k => some (destroyEnd queue (x.assign fun s => { s with frames := k }))
  | _ => none

/-- The states that a step passes through. Delivery of the timer signal disables interrupts. -/
def traced (s : State) (a : Action) : Option (Trace s) :=
  let x := start s
  if s.status ≠ .running then none
  else match a with
  | .run => resume s
  | .timer =>
    if s.interrupts then
      some (threadYield threadAny
        (x.assign fun s => { s with interrupts := false, frames := .handler::s.frames }))
    else none
  | .call c =>
    match s.frames with
    | .own::k =>
      some (doCall c (x.assign fun s =>
        { s.record (.call s.self c s.interrupts) with frames := .call c::.own::k }))
    | _ => none
  | .compute => if s.frames.head? = some .own then some (x.assign fun s => s.record (.own s.self)) else none
  | .interruptsSet enabled =>
    if s.frames.head? = some .own then
      some ((x.assign fun s => s.record (.own s.self)).interruptsSet enabled)
    else none
  | .finish =>
    match s.frames with
    | .own::.stubReturn::k =>
      some (x.assign fun s => { s.record (.own s.self) with frames := .stubReturn::k })
    | _ => none

/-! ### The last state of a trace -/

section Now

variable (x : Trace s₀)

theorem ite_now {p : Prop} [Decidable p] {x y : Trace s₀} {s t : State} (hx : x.now = s) (hy : y.now = t) :
    (if p then x else y).now = if p then s else t := by
  split
  · exact hx
  · exact hy

theorem wakeupLoop_now (waker : Waker) (queue : WaitQueue) (l : List Tid) (n : ℤ) (x : Trace s₀) :
    ((wakeupLoop waker queue l n x).1,(wakeupLoop waker queue l n x).2.now) =
      ThreadModel.wakeupLoop waker queue l n x.now := by
  induction l generalizing n x with
  | nil => rfl
  | cons t l ih =>
    simp only [wakeupLoop,ThreadModel.wakeupLoop]
    split
    · rfl
    · rw [ih]
      rfl

theorem wakeupLoop_masked (waker : Waker) (queue : WaitQueue) (b : Bool) (l : List Tid) (n : ℤ)
    (s : State) : ThreadModel.wakeupLoop waker queue l n (masked b s) =
      ((ThreadModel.wakeupLoop waker queue l n s).1,
        masked b (ThreadModel.wakeupLoop waker queue l n s).2) := by
  induction l generalizing n s with
  | nil => rfl
  | cons t l ih =>
    simp only [ThreadModel.wakeupLoop]
    split
    · rfl
    · exact ih (n+1) (addToTail t ((s.setQueue queue l).record (.woken (s.inst t) queue waker)))

theorem threadWakeup_masked (waker : Waker) (queue : WaitQueue) (all : ℤ) (b : Bool) (s : State) :
    ThreadModel.threadWakeup waker queue all (masked b s) =
      ((ThreadModel.threadWakeup waker queue all s).1,
        masked b (ThreadModel.threadWakeup waker queue all s).2) := by
  have hw : (masked b s).waitQueues = s.waitQueues := rfl
  simp only [ThreadModel.threadWakeup,hw]
  cases s.waitQueues queue with
  | nil => rfl
  | cons t rest =>
    simp only
    split
    · split
      · rfl
      · exact wakeupLoop_masked waker queue b rest 1
          (addToTail t ((s.setQueue queue rest).record (.woken (s.inst t) queue waker)))
    · rfl

theorem threadWakeup_interrupts (waker : Waker) (queue : WaitQueue) (all : ℤ) (s : State) :
    (ThreadModel.threadWakeup waker queue all s).2.interrupts = s.interrupts := by
  have h := congrArg Prod.snd (threadWakeup_masked waker queue all s.interrupts s)
  rw [masked_self] at h
  rw [h]
  rfl

/-- Interrupts may be disabled around `thread_wakeup`. -/
theorem masked_threadWakeup (waker : Waker) (queue : WaitQueue) (all : ℤ) (s : State) :
    masked s.interrupts (ThreadModel.threadWakeup waker queue all (masked false s)).2 =
      (ThreadModel.threadWakeup waker queue all s).2 := by
  rw [threadWakeup_masked]
  simp only [masked_masked]
  rw [← threadWakeup_interrupts waker queue all s,masked_self]

theorem threadWakeup_now (waker : Waker) (queue : WaitQueue) (all : ℤ) :
    ((threadWakeup waker queue all x).1,(threadWakeup waker queue all x).2.now) =
      ThreadModel.threadWakeup waker queue all x.now := by
  -- interrupts are disabled in the loop and restored after it
  have hrun : ((threadWakeup waker queue all x).1,(threadWakeup waker queue all x).2.now) =
      ((ThreadModel.threadWakeup waker queue all (masked false x.now)).1,
        masked x.now.interrupts (ThreadModel.threadWakeup waker queue all (masked false x.now)).2) := by
    simp only [threadWakeup,ThreadModel.threadWakeup,interruptsSet_now]
    cases (masked false x.now).waitQueues queue with
    | nil => rfl
    | cons t rest =>
      simp only
      split
      · split
        · rfl
        · have hloop := wakeupLoop_now waker queue rest 1 (((x.interruptsSet false).assign
            (State.setQueue queue rest)).assign fun s =>
              addToTail t (s.record (.woken ((masked false x.now).inst t) queue waker)))
          exact congrArg (fun r : ℤ × State => (r.1,masked x.now.interrupts r.2)) hloop
      · rfl
  rw [hrun,masked_threadWakeup,threadWakeup_masked]

/-- The stacks of the unassigned slots of `l` are freed. -/
def swept (l : List Tid) (s : State) : State :=
  { s with TCBs := fun i =>
      if i ∈ l ∧ (s.TCBs i).stackToFree = true ∧ (s.TCBs i).tState = .notAssigned then
        { s.TCBs i with stackToFree := false }
      else s.TCBs i }

theorem swept_cons (i : Tid) (l : List Tid) (s : State) : swept (i::l) s = swept l (swept [i] s) := by
  simp only [swept]
  congr 1
  funext j
  by_cases hj : j = i
  · subst hj
    by_cases hc : (s.TCBs j).stackToFree = true ∧ (s.TCBs j).tState = .notAssigned <;> simp [hc]
  · simp [hj]

theorem freeStack_now (i : Tid) : (freeStack i x).now = swept [i] x.now := by
  simp only [freeStack]
  split
  · rename_i hc
    simp only [assign_now,State.modify,swept]
    congr 1
    funext j
    by_cases hj : j = i
    · subst hj; simp [hc]
    · simp [hj]
  · rename_i hc
    have he : (fun j => if j ∈ [i] ∧ (x.now.TCBs j).stackToFree = true ∧
        (x.now.TCBs j).tState = .notAssigned then { x.now.TCBs j with stackToFree := false }
        else x.now.TCBs j) = x.now.TCBs := by
      funext j
      by_cases hj : j = i
      · subst hj; simp [hc]
      · simp [hj]
    simp only [swept]
    rw [he]

theorem sweep_now (l : List Tid) (x : Trace s₀) :
    (l.foldl (fun x i => freeStack i x) x).now = swept l x.now := by
  induction l generalizing x with
  | nil => simp [swept]
  | cons i l ih =>
    rw [List.foldl_cons,ih,freeStack_now,← swept_cons]

theorem freeTCBStacks_now : (freeTCBStacks x).now = ThreadModel.freeTCBStacks x.now := by
  rw [freeTCBStacks,sweep_now]
  simp only [swept,ThreadModel.freeTCBStacks,mem_available,and_assoc]
  rfl

theorem freeWithInterruptsOff_now : (freeWithInterruptsOff x).now = ThreadModel.freeTCBStacks x.now := by
  simp only [freeWithInterruptsOff,interruptsSet_now,freeTCBStacks_now]
  rfl

theorem switchTo_now (n : Tid) : (switchTo n x).now = ThreadModel.switchTo n x.now := rfl

/-- The state of `thread_exit` before it wakes up the threads that wait for it. -/
def unassigned (marked : Bool) (s : State) : State :=
  let s := (masked false s).modify s.currentThreadId fun t =>
    { t with
      mycontext := ⟨[],false⟩
      tState := .notAssigned
      killOnNextRun := false
      waitQueue := none }
  s.record (.exited s.self marked)

theorem exiting_now (marked : Bool) : (exiting marked x).now = addToHeadId x.now.currentThreadId
    (ThreadModel.threadWakeup .threadExit (.tWait x.now.currentThreadId) 1 (unassigned marked x.now)).2 := by
  let y := ((x.interruptsSet false).assign (State.modify x.now.currentThreadId fun t =>
    { t with
      mycontext := ⟨[],false⟩
      tState := .notAssigned
      killOnNextRun := false
      waitQueue := none })).assign fun s => s.record (.exited s.self marked)
  exact congrArg (addToHeadId x.now.currentThreadId) (congrArg Prod.snd
    (threadWakeup_now y .threadExit (.tWait x.now.currentThreadId) 1))

theorem exiting_eq {marked : Bool}
    (h : ∀ t ∈ x.now.waitQueues (.tWait x.now.currentThreadId), t ≠ -1) :
    (exiting marked x).now = SchedulerView.exited marked x.now := by
  have hself : ((masked false x.now).modify x.now.currentThreadId fun t : Thread =>
    { t with
      mycontext := ⟨[],false⟩
      tState := .notAssigned
      killOnNextRun := false
      waitQueue := none }).self = x.now.self := by
    simp [State.self,State.inst,State.modify,masked]
  rw [exiting_now,unassigned,hself]
  exact SchedulerView.exited_eq h

theorem threadExit_now (marked : Bool) : (threadExit marked x).now = ThreadModel.threadExit marked x.now := by
  have hexit : ThreadModel.threadExit marked x.now =
      let s := addToHeadId x.now.currentThreadId (ThreadModel.threadWakeup .threadExit
        (.tWait x.now.currentThreadId) 1 (unassigned marked x.now)).2
      if (removeNextReadyThread s).1 = -1 then
        { ThreadModel.freeTCBStacks (removeNextReadyThread s).2 with
          interrupts := x.now.interrupts, status := .exited }
      else ThreadModel.switchTo (removeNextReadyThread s).1 (removeNextReadyThread s).2 := rfl
  rw [hexit,← exiting_now]
  refine ite_now ?_ rfl
  simp only [assign_now,interruptsSet_now,freeTCBStacks_now]
  rfl

theorem leave_now (enabled : Bool) (v : ℤ) :
    (leave enabled v x).now = return_ v (masked enabled x.now) := rfl

theorem yieldingBlock_now (n o : Tid) : (yieldingBlock n o x).now = ThreadModel.yieldingBlock n o x.now := by
  simp only [yieldingBlock,ThreadModel.yieldingBlock,switchTo_now,assign_now]
  cases (State.modify x.now.currentThreadId (fun t => { t with tState := .ready }) x.now).tcb.waitQueue <;> rfl

theorem afterGetcontext_now (n o tk : Tid) (enabled : Bool) :
    (afterGetcontext n o tk enabled x).now = ThreadModel.afterGetcontext n o tk enabled x.now := by
  simp only [afterGetcontext,ThreadModel.afterGetcontext,freeWithInterruptsOff_now]
  split
  · rw [threadExit_now,freeWithInterruptsOff_now]
  split
  · rw [yieldingBlock_now,freeWithInterruptsOff_now]
  · rw [leave_now,assign_now,freeWithInterruptsOff_now]
    rfl

theorem yieldTo_now (n : Tid) (enabled : Bool) :
    (yieldTo n enabled x).now = ThreadModel.yieldTo n enabled x.now := by
  rw [yieldTo,afterGetcontext_now]
  rfl

theorem threadYield_now (w : Tid) : (threadYield w x).now = ThreadModel.threadYield w x.now :=
  ite_now rfl (ite_now rfl (ite_now rfl (ite_now rfl (ite_now rfl (yieldTo_now _ _ _)))))

theorem threadSleep_now (q : Option WaitQueue) :
    (threadSleep q x).now = ThreadModel.threadSleep q x.now := by
  simp only [threadSleep,ThreadModel.threadSleep]
  cases q with
  | none => rfl
  | some queue =>
    simp only
    have hr : (x.interruptsSet false).now.readyQueue = x.now.readyQueue := rfl
    rw [hr]
    cases x.now.readyQueue with
    | nil => rfl
    | cons t rest => exact threadYield_now _ _

theorem removeFromHead_masked (b : Bool) (s : State) :
    removeFromHead (masked b s) = ((removeFromHead s).1,masked b (removeFromHead s).2) := by
  have ha : (masked b s).availableThreadIds = s.availableThreadIds := rfl
  simp only [removeFromHead,ha]
  cases s.availableThreadIds <;> rfl

/-- The slot has the new stack, whether or not it had one before. -/
theorem reallocate_now (id : Tid) (stack : Bool) (f : State → State) :
    f (State.modify id (fun t => { t with stackToFree := stack })
      (if (x.now.TCBs id).stackToFree then
        x.assign (State.modify id fun t => { t with stackToFree := false })
      else x).now) = f (State.modify id (fun t => { t with stackToFree := stack }) x.now) := by
  congr 1
  split
  · simp only [assign_now,State.modify]
    congr 1
    funext j
    by_cases hj : j = id <;> simp [hj]
  · rfl

theorem createThread_now (id : Tid) (stack : Bool) (s : State) (hx : x.now = masked false s) :
    (createThread id stack s.interrupts x).now =
      let s := s.modify id fun t => { t with stackToFree := stack }
      if stack = false then return_ threadNomemory s
      else
        let s := s.modify id fun t =>
          { t with
            mycontext := ⟨[.stubEntry],false⟩
            tState := .ready
            generation := t.generation+1 }
        return_ id (addToTail id (s.record (.created (s.inst id)))) := by
  refine ite_now ?_ ?_
  · refine (reallocate_now x id stack fun u => return_ threadNomemory (masked s.interrupts u)).trans ?_
    rw [hx]
    rfl
  · refine (reallocate_now x id stack fun u =>
      let u := u.modify id fun t =>
        { t with
          mycontext := ⟨[.stubEntry],false⟩
          tState := .ready
          generation := t.generation+1 }
      return_ id (masked s.interrupts (addToTail id (u.record (.created (u.inst id)))))).trans ?_
    rw [hx]
    rfl

theorem threadCreate_now (stack : Bool) :
    (threadCreate stack x).now = ThreadModel.threadCreate stack x.now := by
  let s := x.now.modify x.now.currentThreadId fun t => { t with mycontext := ⟨x.now.frames,false⟩ }
  have hr := removeFromHead_masked false s
  have hint : (removeFromHead s).2.interrupts = x.now.interrupts := by
    simp only [removeFromHead]
    split <;> rfl
  let y := ((x.interruptsSet false).assign fun s =>
    s.modify s.currentThreadId fun t => { t with mycontext := ⟨s.frames,false⟩ }).assign fun s =>
      (removeFromHead s).2
  have hy : y.now = masked false (removeFromHead s).2 := congrArg Prod.snd hr
  have hcreate : threadCreate stack x = if (removeFromHead (masked false s)).1 = -1 then
      leave x.now.interrupts threadNomore y
    else createThread (removeFromHead (masked false s)).1 stack x.now.interrupts y := rfl
  rw [hcreate,hr,← hint]
  refine ite_now ?_ ?_
  · rw [leave_now,hy]
    rfl
  · exact createThread_now y _ stack _ hy

theorem threadKill_now (tid : Tid) : (threadKill tid x).now = ThreadModel.threadKill tid x.now :=
  ite_now rfl (ite_now rfl (ite_now rfl (ite_now rfl rfl)))

theorem threadWait_now (tid : Tid) : (threadWait tid x).now = ThreadModel.threadWait tid x.now :=
  ite_now rfl (ite_now rfl (ite_now rfl (threadSleep_now _ _)))

theorem acquireLoop_now (lock : ℕ) (enabled : Bool) :
    (acquireLoop lock enabled x).now = ThreadModel.acquireLoop lock enabled x.now := by
  simp only [acquireLoop,ThreadModel.acquireLoop]
  cases x.now.locks lock with
  | none => rfl
  | some l => exact ite_now rfl (threadSleep_now _ _)

theorem lockAcquire_now (lock : ℕ) : (lockAcquire lock x).now = ThreadModel.lockAcquire lock x.now :=
  acquireLoop_now _ lock _

theorem releaseLock_now (lock : ℕ) : (releaseLock lock x).now = ThreadModel.releaseLock lock x.now := by
  refine ite_now ?_ rfl
  have hw := congrArg Prod.snd (threadWakeup_now ((x.interruptsSet false).assign fun s =>
    s.record (.passed s.self lock)) .lockRelease (.waitOnLock lock) 1)
  have hm := masked_threadWakeup .lockRelease (.waitOnLock lock) 1
    (x.now.record (.passed x.now.self lock))
  refine Eq.trans ?_ (congrArg (fun s : State =>
    (s.setLock lock (some ⟨false,-1⟩)).record (.released s.self lock)) hm)
  exact congrArg (fun s : State => masked x.now.interrupts
    ((s.setLock lock (some ⟨false,-1⟩)).record (.released s.self lock))) hw

theorem withLock_now {lock : ℕ} {f : Trace s₀ → Trace s₀} {g : State → State}
    (h : ∀ x, (f x).now = g x.now) : (withLock lock f x).now = ThreadModel.withLock lock g x.now :=
  ite_now (h x) rfl

theorem withQueue_now {queue : WaitQueue} {f : Trace s₀ → Trace s₀} {g : State → State}
    (h : ∀ x, (f x).now = g x.now) : (withQueue queue f x).now = ThreadModel.withQueue queue g x.now :=
  ite_now rfl (h x)

theorem lockRelease_now (lock : ℕ) : (lockRelease lock x).now = ThreadModel.lockRelease lock x.now := by
  refine withLock_now x fun x => ?_
  rw [assign_now,releaseLock_now]

theorem cvWait_now (cv lock : ℕ) : (cvWait cv lock x).now = ThreadModel.cvWait cv lock x.now := by
  refine withQueue_now x fun x => withLock_now x fun x => ite_now ?_ rfl
  rw [threadSleep_now,releaseLock_now]
  rfl

theorem cvWakeup_now (waker : Waker) (all : ℤ) (cv lock : ℕ) :
    (cvWakeup waker all cv lock x).now = ThreadModel.cvWakeup waker all cv lock x.now := by
  refine withQueue_now x fun x => withLock_now x fun x => ite_now ?_ rfl
  have hw := congrArg Prod.snd (threadWakeup_now ((x.interruptsSet false).assign fun s =>
    s.record (.passed s.self lock)) waker (.waitOnCv cv) all)
  have hm := masked_threadWakeup waker (.waitOnCv cv) all (x.now.record (.passed x.now.self lock))
  refine Eq.trans ?_ (congrArg (return_ 0) hm)
  exact congrArg (fun s => return_ 0 (masked x.now.interrupts s)) hw

theorem doCall_now (c : Call) : (doCall c x).now = ThreadModel.doCall c x.now := by
  cases c with
  | threadCreate stack => exact threadCreate_now x stack
  | threadYield w => exact threadYield_now x w
  | threadExit => exact threadExit_now x false
  | threadKill tid => exact threadKill_now x tid
  | threadSleep q =>
    cases q with
    | none => exact threadSleep_now x none
    | some n => exact withQueue_now x fun x => threadSleep_now x _
  | threadWakeup q all =>
    cases q with
    | none => rfl
    | some n =>
      refine ite_now rfl ?_
      exact congrArg (fun r : ℤ × State => return_ r.1 r.2) (threadWakeup_now x .threadWakeup (.created n) all)
  | waitQueueDestroy q => cases q <;> rfl
  | threadWait tid => exact threadWait_now x tid
  | lockAcquire lock => exact lockAcquire_now x lock
  | lockRelease lock => exact lockRelease_now x lock
  | cvWait cv lock => exact cvWait_now x cv lock
  | cvSignal cv lock => exact cvWakeup_now x _ _ cv lock
  | cvBroadcast cv lock => exact cvWakeup_now x _ _ cv lock
  | _ => rfl

theorem resume_now (s : State) : (resume s).map now = ThreadModel.resume s := by
  simp only [resume,ThreadModel.resume]
  cases s.frames with
  | nil => rfl
  | cons f k =>
    cases f with
    | stubResponsibilities =>
      exact congrArg (fun u : State => some { u with frames := .stubKillCheck::k })
        (freeWithInterruptsOff_now (start s))
    | stubKillCheck =>
      simp only
      split
      · exact congrArg some (threadExit_now _ true)
      · rfl
    | stubReturn => exact congrArg some (threadExit_now _ false)
    | yielded n o tk e => exact congrArg some (afterGetcontext_now _ n o tk e)
    | acquire lock e => exact congrArg some (acquireLoop_now _ lock e)
    | cvSlept cv lock e => exact congrArg some (lockAcquire_now _ lock)
    | _ => rfl

/-- A trace ends in the state that the step leads to. -/
theorem traced_now (s : State) (a : Action) : (traced s a).map now = step s a := by
  simp only [traced,step]
  split
  · rfl
  cases a with
  | run => exact resume_now s
  | timer =>
    simp only
    split
    · exact congrArg some (threadYield_now _ _)
    · rfl
  | call c =>
    simp only
    cases s.frames with
    | nil => rfl
    | cons f k =>
      cases f with
      | own => exact congrArg some (doCall_now _ c)
      | _ => rfl
  | compute => simp only; split <;> rfl
  | interruptsSet e => simp only; split <;> rfl
  | finish =>
    simp only
    rcases s.frames with _ | ⟨f,_ | ⟨g,k⟩⟩
    · rfl
    · cases f <;> rfl
    · cases f with
      | own => cases g <;> rfl
      | _ => rfl

end Now

end ThreadTrace
end OsLabs

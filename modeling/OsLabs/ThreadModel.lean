import OsLabs.Transition

/-!
# The user-level thread package

The functions of `threads/thread.c` on an explicit machine state. A thread's
control point is a list of frames, innermost first: `getcontext` stores the list
and the signal mask in the thread control block and `setcontext` loads them, so a
thread that yields really re-executes the code after `getcontext` when it is
scheduled again. The calls run with interrupts disabled; one step therefore runs
from one point of the running thread to the next point at which control is back in
the thread's own code, has been handed to another thread, or may be interrupted.
A call restores the interrupts and returns in one step, since a signal between the two
finds its work done; `thread_kill`, whose result is about another thread, returns in a
step of its own. Linked queues are lists, front first. `history` and `generation` are not in the
source: they record what happened, newest event first, and which thread instance
owns a recycled identifier. No function reads them.
-/

namespace OsLabs
namespace ThreadModel

abbrev Tid := ℤ

def threadMaxThreads : Tid := 1024
def threadAny : Tid := -1
def threadSelf : Tid := -2
def threadInvalid : Tid := -3
def threadNone : Tid := -4
def threadNomore : Tid := -5
def threadNomemory : Tid := -6

inductive ThreadState
  | notAssigned | ready | running
  deriving DecidableEq, Repr

/-- A pointer to a wait queue, named by the structure that owns the queue. -/
inductive WaitQueue
  | tWait (tid : Tid)
  | waitOnLock (lock : ℕ)
  | waitOnCv (cv : ℕ)
  | created (n : ℕ)
  deriving DecidableEq, Repr

/-- The calls a thread's own code can make. The result of the stack `malloc` is an
argument of `threadCreate`, a NULL queue is `none`, and the lock and cv pointers
are the non-NULL ones that the functions assert. -/
inductive Call
  | threadId
  | threadCreate (stack : Bool)
  | threadYield (wantTid : Tid)
  | threadExit
  | threadKill (tid : Tid)
  | threadSleep (queue : Option ℕ)
  | threadWakeup (queue : Option ℕ) (all : ℤ)
  | threadWait (tid : Tid)
  | lockAcquire (lock : ℕ)
  | lockRelease (lock : ℕ)
  | lockDestroy (lock : ℕ)
  | cvDestroy (cv : ℕ)
  | waitQueueDestroy (queue : Option ℕ)
  | cvWait (cv lock : ℕ)
  | cvSignal (cv lock : ℕ)
  | cvBroadcast (cv lock : ℕ)
  deriving DecidableEq, Repr

/-- A thread instance: the slot and the number of creations that used it. -/
structure Inst where
  tid : Tid
  generation : ℕ
  deriving DecidableEq, Repr

/-- The function whose `thread_wakeup` moved a thread to the ready queue. -/
inductive Waker
  | threadWakeup | threadExit | lockRelease | cvSignal | cvBroadcast
  deriving DecidableEq, Repr

inductive Event
  | call (i : Inst) (c : Call) (enabled : Bool)
  | ret (i : Inst) (c : Call) (value : ℤ) (enabled : Bool)
  | own (i : Inst)
  | created (i : Inst)
  | exited (i : Inst) (marked : Bool)
  | slept (i : Inst) (queue : WaitQueue)
  | woken (i : Inst) (queue : WaitQueue) (waker : Waker)
  | acquired (i : Inst) (lock : ℕ)
  | passed (i : Inst) (lock : ℕ)
  | released (i : Inst) (lock : ℕ)
  | killed (i target : Inst)
  | discarded (tid : Tid) (queue : WaitQueue)
  deriving DecidableEq, Repr

/-- Resume points, each with the locals that are still live there. -/
inductive Frame
  /-- the thread's own code -/
  | own
  /-- `thread_stub` before it enables interrupts -/
  | stubEntry
  /-- `thread_stub` before `threadResponsibilities` frees the stacks -/
  | stubResponsibilities
  /-- `threadResponsibilities`, called by `thread_stub`, before it reads the kill mark -/
  | stubKillCheck
  /-- `thread_stub` after `thread_main` returned -/
  | stubReturn
  /-- the return address of a call in the thread's own code -/
  | call (c : Call)
  /-- `thread_yield` at the return of `getcontext` -/
  | yielded (nextTidToRun oldThreadId tookControl : Tid) (enabled : Bool)
  /-- `thread_sleep` after `thread_yield` -/
  | sleep (enabled : Bool)
  /-- `thread_wait` after `thread_sleep` -/
  | wait (tid : Tid) (enabled : Bool)
  /-- the head of the loop of `lock_acquire` -/
  | acquire (lock : ℕ) (enabled : Bool)
  /-- `cv_wait` after `thread_sleep` -/
  | cvSlept (cv lock : ℕ) (enabled : Bool)
  /-- `cv_wait` after `lock_acquire` -/
  | cvReacquired (cv lock : ℕ) (enabled : Bool)
  /-- `thread_kill` between the mark and its return -/
  | killed (tid : Tid)
  /-- the loop of `wait_queue_destroy` -/
  | destroy (queue : WaitQueue)
  /-- `wait_queue_destroy` after its loop -/
  | destroyed (queue : WaitQueue)
  /-- `interrupt_handler` after `thread_yield` -/
  | handler
  deriving DecidableEq, Repr

structure Context where
  frames : List Frame
  interrupts : Bool

/-- The thread control block; the index is the source's `id`, and `t_wait` is the
queue `WaitQueue.tWait` of the index. -/
structure Thread where
  tState : ThreadState
  mycontext : Context
  stackToFree : Bool
  setcontextCalled : Bool
  killOnNextRun : Bool
  waitQueue : Option WaitQueue
  generation : ℕ

structure Lock where
  isAcquired : Bool
  acquiredBy : Tid

/-- The process runs, has called `exit(0)`, has failed an assertion, has read or written
outside an object, or has used an object after it was destroyed. -/
inductive Status
  | running | exited | aborted | undefined | dangling
  deriving DecidableEq, Repr

structure State where
  TCBs : Tid → Thread
  currentThreadId : Tid
  readyQueue : List Tid
  availableThreadIds : List Tid
  waitQueues : WaitQueue → List Tid
  /-- the wait queues that were destroyed -/
  freed : WaitQueue → Bool
  locks : ℕ → Option Lock
  interrupts : Bool
  frames : List Frame
  status : Status
  history : List Event

namespace State

def tcb (s : State) : Thread := s.TCBs s.currentThreadId

def inst (s : State) (tid : Tid) : Inst := ⟨tid,(s.TCBs tid).generation⟩

def self (s : State) : Inst := s.inst s.currentThreadId

def modify (tid : Tid) (f : Thread → Thread) (s : State) : State :=
  { s with TCBs := fun i => if i = tid then f (s.TCBs i) else s.TCBs i }

def record (e : Event) (s : State) : State := { s with history := e :: s.history }

def setQueue (queue : WaitQueue) (tids : List Tid) (s : State) : State :=
  { s with waitQueues := fun q => if q = queue then tids else s.waitQueues q }

def setLock (lock : ℕ) (l : Option Lock) (s : State) : State :=
  { s with locks := fun i => if i = lock then l else s.locks i }

end State

open State

/-! ### Queues and free identifiers -/

/-- A push onto a destroyed queue leaves the model. -/
def pushThreadToWait (queue : WaitQueue) (tid : Tid) (s : State) : State :=
  { s.setQueue queue (s.waitQueues queue ++ [tid]) with
    status := if s.freed queue then .dangling else s.status }

def popHeadThreadWait (queue : WaitQueue) (s : State) : Tid × State :=
  match s.waitQueues queue with
  | [] => (-1,s)
  | tid::rest => (tid,s.setQueue queue rest)

def addToTail (tid : Tid) (s : State) : State := { s with readyQueue := s.readyQueue ++ [tid] }

def removeNextReadyThread (s : State) : Tid × State :=
  match s.readyQueue with
  | [] => (-1,s)
  | tid::rest => (tid,{ s with readyQueue := rest })

/-- Removal by identifier; the ready queue never holds an identifier twice. -/
def removeFromReadyQueue (tid : Tid) (s : State) : Tid × State :=
  if tid ∈ s.readyQueue then (tid,{ s with readyQueue := s.readyQueue.erase tid }) else (-1,s)

def addToHeadId (tid : Tid) (s : State) : State :=
  { s with availableThreadIds := tid :: s.availableThreadIds }

def removeFromHead (s : State) : Tid × State :=
  match s.availableThreadIds with
  | [] => (-1,s)
  | tid::rest => (tid,{ s with availableThreadIds := rest })

/-! ### Wake-up, exit and context switch -/

/-- The loop of `thread_wakeup` for `all == 1`, on the rest of the wait queue. -/
def wakeupLoop (waker : Waker) (queue : WaitQueue) : List Tid → ℤ → State → ℤ × State
  | [], wokeUp, s => (wokeUp,s.setQueue queue [])
  | tidPopped::rest, wokeUp, s =>
    if tidPopped = -1 then (wokeUp,s.setQueue queue rest)
    else wakeupLoop waker queue rest (wokeUp+1)
      (((s.setQueue queue rest).record (.woken (s.inst tidPopped) queue waker)) |> addToTail tidPopped)

/-- `thread_wakeup` on a non-NULL queue; interrupts are off inside and restored. -/
def threadWakeup (waker : Waker) (queue : WaitQueue) (all : ℤ) (s : State) : ℤ × State :=
  match s.waitQueues queue with
  | [] => (0,s)
  | tidPopped::rest =>
    let s' := ((s.setQueue queue rest).record (.woken (s.inst tidPopped) queue waker)) |> addToTail tidPopped
    if all = 1 then
      if tidPopped = -1 then (1,s') else wakeupLoop waker queue rest 1 s'
    else (1,s')

def freeTCBStacks (s : State) : State :=
  { s with TCBs := fun i =>
      if 1 ≤ i ∧ i < threadMaxThreads ∧ (s.TCBs i).stackToFree = true ∧
          (s.TCBs i).tState = .notAssigned then
        { s.TCBs i with stackToFree := false }
      else s.TCBs i }

def setcontext (tid : Tid) (s : State) : State :=
  { s with
    frames := (s.TCBs tid).mycontext.frames
    interrupts := (s.TCBs tid).mycontext.interrupts }

/-- The end of `thread_exit` and of the yielding block of `thread_yield`. -/
def switchTo (nextTidToRun : Tid) (s : State) : State :=
  setcontext nextTidToRun
    ({ s with currentThreadId := nextTidToRun }.modify nextTidToRun
      fun t => { t with tState := .running })

/-- `marked` tells whether `threadResponsibilities` made the call. -/
def threadExit (marked : Bool) (s : State) : State :=
  let enabled := s.interrupts
  let old := s.currentThreadId
  let s := { s with interrupts := false }.modify old fun t =>
    { t with
      mycontext := ⟨[],false⟩
      tState := .notAssigned
      killOnNextRun := false
      waitQueue := none }
  let s := s.record (.exited s.self marked)
  let s := (threadWakeup .threadExit (.tWait old) 1 s).2
  let s := addToHeadId old s
  let (nextTidToRun,s) := removeNextReadyThread s
  if nextTidToRun = -1 then
    { freeTCBStacks s with interrupts := enabled, status := .exited }
  else switchTo nextTidToRun s

/-- Return `v` to the frame on top of the list. The frames whose code only restores
the interrupts and returns are left in the same step, `lock_acquire` and `cv_wait`
go on in the next one. -/
def returnTo (v : ℤ) : List Frame → State → State
  | .sleep enabled::k, s => returnTo v k { s with interrupts := enabled }
  | .wait tid enabled::k, s => returnTo tid k { s with interrupts := enabled }
  | .cvReacquired _ _ enabled::k, s => returnTo v k { s with interrupts := enabled }
  | .handler::k, s => { s with interrupts := true, frames := k }
  | .call c::k, s => { s.record (.ret s.self c v s.interrupts) with frames := k }
  | k, s => { s with frames := k }

def return_ (v : ℤ) (s : State) : State := returnTo v s.frames s

/-- The block of `thread_yield` that hands control to `nextTidToRun`. -/
def yieldingBlock (nextTidToRun oldThreadId : Tid) (s : State) : State :=
  let old := s.currentThreadId
  let s := s.modify old fun t => { t with tState := .ready }
  let s := match s.tcb.waitQueue with
    | some queue =>
      ((pushThreadToWait queue old s).record (.slept s.self queue)).modify old
        fun t => { t with waitQueue := none }
    | none => addToTail old s
  switchTo nextTidToRun (s.modify oldThreadId fun t => { t with setcontextCalled := true })

/-- `thread_yield` from the return of `getcontext` on: the first time, and again when
the thread is scheduled, `threadResponsibilities` runs and `setcontext_called` decides. -/
def afterGetcontext (nextTidToRun oldThreadId tookControl : Tid) (enabled : Bool) (s : State) :
    State :=
  let s := freeTCBStacks s
  if s.tcb.killOnNextRun then threadExit true s
  else if s.tcb.setcontextCalled = false then yieldingBlock nextTidToRun oldThreadId s
  else
    let s := s.modify s.currentThreadId fun t => { t with setcontextCalled := false }
    return_ tookControl { s with interrupts := enabled }

/-- Save the point after `getcontext` and run on from it. -/
def yieldTo (nextTidToRun : Tid) (enabled : Bool) (s : State) : State :=
  let old := s.currentThreadId
  let s := s.modify old fun t =>
    { t with mycontext := ⟨.yielded nextTidToRun old nextTidToRun enabled::s.frames,s.interrupts⟩ }
  afterGetcontext nextTidToRun old nextTidToRun enabled s

def threadYield (wantTid : Tid) (s : State) : State :=
  let enabled := s.interrupts
  let fail := fun v => return_ v s
  let s := { s with interrupts := false }
  if wantTid ≥ threadMaxThreads ∨ wantTid < -7 then fail threadInvalid
  else if threadSelf = wantTid then fail s.currentThreadId
  else if wantTid = s.currentThreadId then fail s.currentThreadId
  else if wantTid ≥ 0 ∧ (s.TCBs wantTid).tState = .notAssigned then fail threadInvalid
  else
    let (nextTidToRun,s) :=
      if wantTid = threadAny then removeNextReadyThread s else removeFromReadyQueue wantTid s
    if nextTidToRun = -1 then fail threadNone else yieldTo nextTidToRun enabled s

def threadSleep (queue : Option WaitQueue) (s : State) : State :=
  match queue with
  | none => return_ threadInvalid s
  | some queue =>
    match s.readyQueue with
    | [] => return_ threadNone s
    | nextReadyThread::_ =>
      let s := s.modify s.currentThreadId fun t => { t with waitQueue := some queue }
      threadYield nextReadyThread { s with interrupts := false, frames := .sleep s.interrupts::s.frames }

/-! ### The calls -/

def threadId (s : State) : State :=
  return_ (if s.currentThreadId ≥ 0 then s.currentThreadId else threadInvalid) s

/-- The new context is the caller's one, saved with interrupts disabled, with the
program counter moved to `thread_stub` and a stack of its own. -/
def threadCreate (stack : Bool) (s : State) : State :=
  let s := s.modify s.currentThreadId fun t => { t with mycontext := ⟨s.frames,false⟩ }
  let (id,s) := removeFromHead s
  if id = -1 then return_ threadNomore s
  else
    let s := s.modify id fun t => { t with stackToFree := stack }
    if stack = false then return_ threadNomemory s
    else
      let s := s.modify id fun t =>
        { t with
          mycontext := ⟨[.stubEntry],false⟩
          tState := .ready
          generation := t.generation+1 }
      return_ id (addToTail id (s.record (.created (s.inst id))))

/-- The block before `TCBs` has no name here: an index below 0 leaves the model. -/
def threadKill (tid : Tid) (s : State) : State :=
  if tid ≥ 1024 ∨ tid < -7 then return_ threadInvalid s
  else if tid = s.currentThreadId then return_ threadInvalid s
  else if tid < 0 then { s with status := .undefined }
  else if (s.TCBs tid).tState = .notAssigned then return_ threadInvalid s
  else
    { (s.modify tid fun t => { t with killOnNextRun := true }).record (.killed s.self (s.inst tid)) with
      frames := .killed tid::s.frames }

def threadWait (tid : Tid) (s : State) : State :=
  if tid < 0 ∨ tid = s.currentThreadId then return_ threadInvalid s
  else if tid ≥ threadMaxThreads then { s with status := .undefined }
  else if (s.TCBs tid).tState = .notAssigned then return_ threadInvalid s
  else threadSleep (some (.tWait tid))
    { s with interrupts := false, frames := .wait tid s.interrupts::s.frames }

/-- One round of the loop of `lock_acquire`. -/
def acquireLoop (lock : ℕ) (enabled : Bool) (s : State) : State :=
  match s.locks lock with
  | none => { s with status := .dangling }
  | some l =>
    if l.isAcquired = false then
      return_ 0 { (s.setLock lock (some ⟨true,s.currentThreadId⟩)).record (.acquired s.self lock) with
        interrupts := enabled }
    else threadSleep (some (.waitOnLock lock)) { s with frames := .acquire lock enabled::s.frames }

def lockAcquire (lock : ℕ) (s : State) : State :=
  acquireLoop lock s.interrupts { s with interrupts := false }

/-- The test of `lock_release`, `cv_wait`, `cv_signal` and `cv_broadcast`. -/
def ownsLock (lock : ℕ) (s : State) : Bool :=
  match s.locks lock with
  | none => false
  | some l => l.isAcquired && l.acquiredBy == s.currentThreadId

/-- The body of `lock_release`. -/
def releaseLock (lock : ℕ) (s : State) : State :=
  if ownsLock lock s then
    let s := s.record (.passed s.self lock)
    let s := (threadWakeup .lockRelease (.waitOnLock lock) 1 s).2
    (s.setLock lock (some ⟨false,-1⟩)).record (.released s.self lock)
  else s

/-- A call on a destroyed lock leaves the model. -/
def withLock (lock : ℕ) (f : State → State) (s : State) : State :=
  if (s.locks lock).isSome then f s else { s with status := .dangling }

/-- A call on a destroyed queue or cv leaves the model. -/
def withQueue (queue : WaitQueue) (f : State → State) (s : State) : State :=
  if s.freed queue then { s with status := .dangling } else f s

def lockRelease (lock : ℕ) : State → State :=
  withLock lock fun s => return_ 0 (releaseLock lock s)

def cvWait (cv lock : ℕ) : State → State :=
  withQueue (.waitOnCv cv) <| withLock lock fun s =>
    if ownsLock lock s then
      threadSleep (some (.waitOnCv cv))
        (releaseLock lock
          { s.record (.passed s.self lock) with
            interrupts := false, frames := .cvSlept cv lock s.interrupts::s.frames })
    else return_ 0 s

/-- `cv_signal` and `cv_broadcast` differ in the last argument of `thread_wakeup`. -/
def cvWakeup (waker : Waker) (all : ℤ) (cv lock : ℕ) : State → State :=
  withQueue (.waitOnCv cv) <| withLock lock fun s =>
    if ownsLock lock s then
      return_ 0 (threadWakeup waker (.waitOnCv cv) all (s.record (.passed s.self lock))).2
    else return_ 0 s

def cvSignal : ℕ → ℕ → State → State := cvWakeup .cvSignal 0
def cvBroadcast : ℕ → ℕ → State → State := cvWakeup .cvBroadcast 1

/-- `wait_queue_destroy` does not disable interrupts. -/
def waitQueueDestroy (queue : WaitQueue) : State → State :=
  withQueue queue fun s => { s with frames := .destroy queue::s.frames }

def lockDestroy (lock : ℕ) (s : State) : State :=
  match s.locks lock with
  | none => { s with status := .dangling }
  | some l => if l.isAcquired then { s with status := .aborted } else waitQueueDestroy (.waitOnLock lock) s

/-- One round of the loop of `wait_queue_destroy`, by a thread that another one may have
overtaken in destroying the queue. -/
def destroyLoop (queue : WaitQueue) : State → State :=
  withQueue queue fun s =>
    let (tid,s') := popHeadThreadWait queue s
    if tid = -1 then { s' with frames := .destroyed queue::s.frames }
    else { s'.record (.discarded tid queue) with frames := .destroy queue::s.frames }

/-- The head of the queue is freed, and nothing points to the cells behind it any more. -/
def freeWaitQueue (queue : WaitQueue) (s : State) : State :=
  { s.setQueue queue [] with
    freed := fun q => if q = queue then true else s.freed q
    history := ((s.waitQueues queue).map fun t => Event.discarded t queue).reverse ++ s.history }

/-- The end of `wait_queue_destroy`, and of `lock_destroy` or `cv_destroy`. Between the two calls of
`free` another thread can do no more than before them: it cannot use the queue. -/
def destroyEnd (queue : WaitQueue) : State → State :=
  withQueue queue fun s =>
    let s := freeWaitQueue queue s
    match queue with
    | .waitOnLock lock => return_ 0 (s.setLock lock none)
    | _ => return_ 0 s

def doCall : Call → State → State
  | .threadId => threadId
  | .threadCreate stack => threadCreate stack
  | .threadYield wantTid => threadYield wantTid
  | .threadExit => threadExit false
  | .threadKill tid => threadKill tid
  | .threadSleep none => threadSleep none
  | .threadSleep (some n) => withQueue (.created n) (threadSleep (some (.created n)))
  | .threadWakeup none _ => return_ 0
  | .threadWakeup (some n) all => withQueue (.created n) fun s =>
      let r := threadWakeup .threadWakeup (.created n) all s
      return_ r.1 r.2
  | .threadWait tid => threadWait tid
  | .lockAcquire lock => lockAcquire lock
  | .lockRelease lock => lockRelease lock
  | .lockDestroy lock => lockDestroy lock
  | .cvDestroy cv => waitQueueDestroy (.waitOnCv cv)
  | .waitQueueDestroy none => fun s => { s with status := .undefined }
  | .waitQueueDestroy (some n) => waitQueueDestroy (.created n)
  | .cvWait cv lock => cvWait cv lock
  | .cvSignal cv lock => cvSignal cv lock
  | .cvBroadcast cv lock => cvBroadcast cv lock

/-! ### Steps and runs -/

inductive Action
  /-- the running thread's own code makes a call -/
  | call (c : Call)
  /-- the running thread's own code executes something else -/
  | compute
  /-- the running thread's own code enables or disables interrupts -/
  | interruptsSet (enabled : Bool)
  /-- the running thread's `thread_main` returns -/
  | finish
  /-- the running thread goes on inside the package -/
  | run
  /-- the timer signal is delivered -/
  | timer
  deriving DecidableEq, Repr

/-- Go on at the resume point on top of the frames. -/
def resume (s : State) : Option State :=
  match s.frames with
  | .stubEntry::k => some { s with interrupts := true, frames := .stubResponsibilities::k }
  | .stubResponsibilities::k => some { freeTCBStacks s with frames := .stubKillCheck::k }
  | .stubKillCheck::k =>
    if s.tcb.killOnNextRun then some (threadExit true s)
    else some { s with frames := .own::.stubReturn::k }
  | .stubReturn::_ => some (threadExit false s)
  | .yielded nextTidToRun oldThreadId tookControl enabled::k =>
    some (afterGetcontext nextTidToRun oldThreadId tookControl enabled { s with frames := k })
  | .acquire lock enabled::k => some (acquireLoop lock enabled { s with frames := k })
  | .cvSlept cv lock enabled::k =>
    some (lockAcquire lock { s with frames := .cvReacquired cv lock enabled::k })
  | .killed tid::k => some (return_ tid { s with frames := k })
  | .destroy queue::k => some (destroyLoop queue { s with frames := k })
  | .destroyed queue::k => some (destroyEnd queue { s with frames := k })
  | _ => none

def step (s : State) (a : Action) : Option State :=
  if s.status ≠ .running then none
  else match a with
  | .run => resume s
  | .timer =>
    if s.interrupts then
      some (threadYield threadAny { s with interrupts := false, frames := .handler::s.frames })
    else none
  | .call c =>
    match s.frames with
    | .own::k =>
      some (doCall c { s.record (.call s.self c s.interrupts) with frames := .call c::.own::k })
    | _ => none
  | .compute => if s.frames.head? = some .own then some (s.record (.own s.self)) else none
  | .interruptsSet enabled =>
    if s.frames.head? = some .own then some { s.record (.own s.self) with interrupts := enabled }
    else none
  | .finish =>
    match s.frames with
    | .own::.stubReturn::k => some { s.record (.own s.self) with frames := .stubReturn::k }
    | _ => none

/-- What `wait_queue_create` leaves in the queue of a slot, a lock or a cv is the empty
list, and `lock_create` a lock that nobody holds: no function reads one before. -/
def lockCreate : Lock := ⟨false,-1⟩

/-- The identifiers that `thread_init` makes available, smallest first. -/
def initialThreadIds : List Tid := (List.range 1023).map fun n : ℕ => (n : ℤ)+1

/-- The state after `thread_init`; thread 0 runs with interrupts enabled. -/
def threadInit : State where
  TCBs := fun i =>
    { tState := if i = 0 then .running else .notAssigned
      mycontext := ⟨[],false⟩
      stackToFree := false
      setcontextCalled := false
      killOnNextRun := false
      waitQueue := none
      generation := 0 }
  currentThreadId := 0
  readyQueue := []
  availableThreadIds := initialThreadIds
  waitQueues := fun _ => []
  freed := fun _ => false
  locks := fun _ => some lockCreate
  interrupts := true
  frames := [.own]
  status := .running
  history := []

/-- The states of the runs whose steps satisfy `ok`. -/
abbrev Reachable (ok : State → Action → Prop) : State → Prop :=
  Transition.Reachable threadInit step ok

/-- Any run. -/
abbrev anyStep : State → Action → Prop := fun _ _ => True

end ThreadModel
end OsLabs

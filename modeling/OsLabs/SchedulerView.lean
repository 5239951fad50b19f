import OsLabs.SchedulerHistory

/-!
# The scheduler that a machine state shows

`view` forgets control points, signal masks and stacks. Of a thread's frames it keeps
the call that has not returned. The functions of the package that only move threads
and change slots are operations of the abstract scheduler under `view`.
-/

namespace OsLabs
namespace SchedulerView

open ThreadModel Scheduler

def pendingCall : List Frame → Option Call
  | [] => none
  | .call c::_ => some c
  | _::k => pendingCall k

/-- The frames of a thread: the live ones of the running thread, the saved ones of any other. -/
def stack (s : State) (t : Tid) : List Frame :=
  if t = s.currentThreadId then s.frames else (s.TCBs t).mycontext.frames

def slot (th : Thread) (k : List Frame) : Slot where
  tState := th.tState
  setcontextCalled := th.setcontextCalled
  killOnNextRun := th.killOnNextRun
  waitQueue := th.waitQueue
  generation := th.generation
  pending := pendingCall k

def view (s : State) : Sched where
  slots t := slot (s.TCBs t) (stack s t)
  current := s.currentThreadId
  ready := s.readyQueue
  available := s.availableThreadIds
  waits := s.waitQueues
  locks := s.locks
  history := s.history

variable {s s' : State}

theorem view_me : (view s).me = slot s.tcb s.frames := by
  simp [Sched.me,view,stack,State.tcb]

/-- Two states show the same scheduler when they differ in saved frames of the running thread,
in stacks to free, in the signal mask, in the status or in frames above the pending call. -/
theorem view_congr (hs : ∀ t, slot (s'.TCBs t) (stack s' t) = slot (s.TCBs t) (stack s t))
    (hc : s'.currentThreadId = s.currentThreadId) (hr : s'.readyQueue = s.readyQueue)
    (ha : s'.availableThreadIds = s.availableThreadIds) (hw : s'.waitQueues = s.waitQueues)
    (hl : s'.locks = s.locks) (hh : s'.history = s.history) : view s' = view s :=
   Sched.ext (funext hs) hc hr ha hw hl hh

theorem view_frames {k : List Frame} (h : pendingCall k = pendingCall s.frames) :
    view { s with frames := k } = view s := by
  refine view_congr (fun t => ?_) rfl rfl rfl rfl rfl rfl
  by_cases ht : t = s.currentThreadId <;> simp [stack,slot,ht,h]

theorem view_freeTCBStacks : view (freeTCBStacks s) = view s := by
  refine view_congr (fun t => ?_) rfl rfl rfl rfl rfl rfl
  simp only [stack,freeTCBStacks]
  split <;> rfl

/-- The saved context of the running thread is not read. -/
theorem view_mycontext (c : Context) :
    view (s.modify s.currentThreadId fun t => { t with mycontext := c }) = view s := by
  refine view_congr (fun t => ?_) rfl rfl rfl rfl rfl rfl
  by_cases ht : t = s.currentThreadId <;> simp [stack,slot,State.modify,ht]

/-- Changing other fields of a control block changes its slot. -/
theorem view_modify {t : Tid} {f : Thread → Thread} {g : Slot → Slot}
    (hf : ∀ th, (f th).mycontext = th.mycontext) (hg : ∀ th k, slot (f th) k = g (slot th k)) :
    view (s.modify t f) = (view s).modify t g := by
  have hs : ∀ u, slot ((s.modify t f).TCBs u) (stack (s.modify t f) u) =
      ((view s).modify t g).slots u := by
    intro u
    by_cases hu : u = t
    · subst hu
      simp [Sched.modify,view,← hg,State.modify,stack,hf]
    · simp [Sched.modify,view,State.modify,stack,hu]
  exact Sched.ext (funext hs) rfl rfl rfl rfl rfl rfl

/-! ### Wake-up -/

theorem wakeupLoop_eq (waker : Waker) (queue : WaitQueue) : ∀ (l : List Tid) (n : ℤ) (s : State),
    (∀ t ∈ l, t ≠ -1) → wakeupLoop waker queue l n s =
      (n+l.length,{ s with
        readyQueue := s.readyQueue ++ l
        waitQueues := fun q => if q = queue then [] else s.waitQueues q
        history := (l.map fun t => Event.woken (s.inst t) queue waker).reverse ++ s.history })
  | [], n, s, _ => by simp [wakeupLoop,State.setQueue]
  | t::l, n, s, h => by
    have ht : t ≠ -1 := h t (by simp)
    rw [wakeupLoop,if_neg ht,wakeupLoop_eq waker queue l _ _ fun u hu => h u (by simp [hu])]
    simp only [State.setQueue,State.record,addToTail,State.inst,List.map_cons,List.reverse_cons,
      List.append_assoc,List.singleton_append,List.length_cons,Nat.cast_add,Nat.cast_one,
      Prod.mk.injEq]
    refine ⟨by ring,?_⟩
    congr 1
    funext q
    by_cases hq : q = queue <;> simp [hq]

/-- `thread_wakeup` wakes a prefix of the queue: all of it when `all` is 1. -/
theorem threadWakeup_eq (waker : Waker) (queue : WaitQueue) (all : ℤ) (s : State)
    (h : ∀ t ∈ s.waitQueues queue, t ≠ -1) : ∃ l rest, s.waitQueues queue = l ++ rest ∧
      (all = 1 → rest = []) ∧ (s.waitQueues queue ≠ [] → l ≠ []) ∧
      (threadWakeup waker queue all s).1 = l.length ∧
      (threadWakeup waker queue all s).2 = { s with
        readyQueue := s.readyQueue ++ l
        waitQueues := fun q => if q = queue then rest else s.waitQueues q
        history := (l.map fun t => Event.woken (s.inst t) queue waker).reverse ++ s.history } := by
  cases hq : s.waitQueues queue with
  | nil =>
    refine ⟨[],[],rfl,fun _ => rfl,fun h => absurd rfl h,by simp [threadWakeup,hq],?_⟩
    have hf : (fun q => if q = queue then [] else s.waitQueues q) = s.waitQueues := by
      funext q
      by_cases he : q = queue <;> simp [he,hq]
    simp [threadWakeup,hq,hf]
  | cons t l =>
    rw [hq] at h
    have ht : t ≠ -1 := h t (by simp)
    by_cases ha : all = 1
    · refine ⟨t::l,[],by simp,fun _ => rfl,by simp,?_,?_⟩
      · rw [threadWakeup,hq]
        simp only [ha,if_true,ht,if_false]
        rw [wakeupLoop_eq waker queue l _ _ fun u hu => h u (by simp [hu])]
        simp only [List.length_cons,Nat.cast_add,Nat.cast_one]
        ring
      · rw [threadWakeup,hq]
        simp only [ha,if_true,ht,if_false]
        rw [wakeupLoop_eq waker queue l _ _ fun u hu => h u (by simp [hu])]
        simp only [State.setQueue,State.record,addToTail,State.inst,List.map_cons,
          List.reverse_cons,List.append_assoc,List.singleton_append]
        congr 1
        funext q
        by_cases he : q = queue <;> simp [he]
    · refine ⟨[t],l,rfl,fun h => absurd h ha,by simp,?_,?_⟩
      · simp [threadWakeup,hq,ha]
      · simp [threadWakeup,hq,ha,State.setQueue,State.record,addToTail]

/-! ### Switch, exit and creation -/

/-- The yielding block in one update. -/
theorem yieldingBlock_eq {x : Tid} (hx : x ≠ s.currentThreadId) :
    yieldingBlock x s.currentThreadId s = { s with
      TCBs := fun t =>
        if t = x then { s.TCBs t with tState := .running }
        else if t = s.currentThreadId then
          { s.TCBs t with tState := .ready, setcontextCalled := true, waitQueue := none }
        else s.TCBs t
      currentThreadId := x
      readyQueue := match s.tcb.waitQueue with
        | none => s.readyQueue ++ [s.currentThreadId]
        | some _ => s.readyQueue
      waitQueues := match s.tcb.waitQueue with
        | none => s.waitQueues
        | some queue => fun q =>
            if q = queue then s.waitQueues queue ++ [s.currentThreadId] else s.waitQueues q
      interrupts := (s.TCBs x).mycontext.interrupts
      frames := (s.TCBs x).mycontext.frames
      status := match s.tcb.waitQueue with
        | none => s.status
        | some queue => if s.freed queue then .dangling else s.status
      history := match s.tcb.waitQueue with
        | none => s.history
        | some queue => .slept s.self queue :: s.history } := by
  cases hq : (s.TCBs s.currentThreadId).waitQueue with
  | none =>
    simp only [yieldingBlock,switchTo,setcontext,State.modify,State.tcb,hq,addToTail,if_true,hx,
      if_false]
    congr 1
    funext t
    by_cases htx : t = x
    · simp [htx,hx]
    · by_cases htc : t = s.currentThreadId <;> simp [htx,htc,hq,hx.symm]
  | some queue =>
    simp only [yieldingBlock,switchTo,setcontext,State.modify,State.tcb,hq,pushThreadToWait,
      State.setQueue,State.record,State.self,State.inst,if_true,hx,if_false]
    congr 1
    funext t
    by_cases htx : t = x
    · simp [htx,hx]
    · by_cases htc : t = s.currentThreadId <;> simp [htx,htc,hx.symm]

/-- The yielding block, entered after `x` was taken out of the ready queue of `σ`. -/
theorem view_yieldingBlock {σ : Sched} {x : Tid} (hx : x ≠ s.currentThreadId)
    (hv : view s = { σ with ready := σ.ready.erase x })
    (hp : pendingCall s.tcb.mycontext.frames = pendingCall s.frames) :
    view (yieldingBlock x s.currentThreadId s) = σ.switch x := by
  have hslots : ∀ t, σ.slots t = slot (s.TCBs t) (stack s t) := fun t =>
    (congrFun (congrArg Sched.slots hv) t).symm
  have hc : σ.current = s.currentThreadId := (congrArg Sched.current hv).symm
  have hr : σ.ready.erase x = s.readyQueue := (congrArg Sched.ready hv).symm
  have hw : σ.waits = s.waitQueues := (congrArg Sched.waits hv).symm
  have hh : σ.history = s.history := (congrArg Sched.history hv).symm
  have hme : σ.me.waitQueue = s.tcb.waitQueue := by simp [Sched.me,hslots,hc,slot,State.tcb]
  have hself : σ.self = s.self := by
    simp [Sched.self,Sched.inst,hslots,hc,slot,State.self,State.inst]
  rw [yieldingBlock_eq hx]
  have hav : s.availableThreadIds = σ.available := congrArg Sched.available hv
  have hl : s.locks = σ.locks := congrArg Sched.locks hv
  refine Sched.ext (funext fun t => ?_) rfl ?_ hav ?_ hl ?_
  · by_cases htx : t = x
    · subst htx
      simp [view,Sched.switch,hslots,stack,slot,hx]
    · by_cases htc : t = s.currentThreadId
      · subst htc
        have hp' : pendingCall (s.TCBs s.currentThreadId).mycontext.frames = pendingCall s.frames := hp
        simp [view,Sched.switch,hslots,stack,slot,hx.symm,hc,hp']
      · simp [view,Sched.switch,hslots,stack,slot,htx,htc,hc]
  all_goals cases hq : s.tcb.waitQueue <;> simp [view,Sched.switch,hme,hr,hw,hh,hc,hself,hq]

/-- The state in which `thread_exit` looks for the next thread. -/
def exited (marked : Bool) (s : State) : State :=
  { s with
    TCBs := fun t =>
      if t = s.currentThreadId then
        { s.TCBs t with
          mycontext := ⟨[],false⟩, tState := .notAssigned, killOnNextRun := false, waitQueue := none }
      else s.TCBs t
    interrupts := false
    readyQueue := s.readyQueue ++ s.waitQueues (.tWait s.currentThreadId)
    availableThreadIds := s.currentThreadId :: s.availableThreadIds
    waitQueues := fun q => if q = .tWait s.currentThreadId then [] else s.waitQueues q
    history := ((s.waitQueues (.tWait s.currentThreadId)).map fun t =>
        Event.woken (s.inst t) (.tWait s.currentThreadId) .threadExit).reverse ++
      .exited s.self marked :: s.history }

/-- Waking up all the threads that wait for the running one to exit. -/
theorem exited_eq {marked : Bool} (h : ∀ t ∈ s.waitQueues (.tWait s.currentThreadId), t ≠ -1) :
    addToHeadId s.currentThreadId (threadWakeup .threadExit (.tWait s.currentThreadId) 1
      (({ s with interrupts := false }.modify s.currentThreadId fun t =>
        { t with
          mycontext := ⟨[],false⟩
          tState := .notAssigned
          killOnNextRun := false
          waitQueue := none }).record (.exited s.self marked))).2 = exited marked s := by
  let s₁ := ({ s with interrupts := false }.modify s.currentThreadId fun t =>
    { t with
      mycontext := ⟨[],false⟩
      tState := .notAssigned
      killOnNextRun := false
      waitQueue := none }).record (.exited s.self marked)
  obtain ⟨l,rest,hq,hr,_,_,hs⟩ :=
    threadWakeup_eq .threadExit (.tWait s.currentThreadId) 1 s₁ h
  obtain rfl := hr rfl
  have hl : s₁.waitQueues (.tWait s.currentThreadId) = l := by simpa using hq
  change s.waitQueues (.tWait s.currentThreadId) = l at hl
  rw [hs]
  have hi : ∀ t, s₁.inst t = s.inst t := by
    intro t
    simp only [s₁,State.inst,State.record,State.modify]
    split <;> rfl
  simp only [hi]
  simp [addToHeadId,exited,hl,s₁,State.record,State.modify]

theorem threadExit_eq {marked : Bool} (h : ∀ t ∈ s.waitQueues (.tWait s.currentThreadId), t ≠ -1) :
    threadExit marked s =
      let r := removeNextReadyThread (exited marked s)
      if r.1 = -1 then { freeTCBStacks r.2 with interrupts := s.interrupts, status := .exited }
      else switchTo r.1 r.2 := by
  have hself : ({ s with interrupts := false }.modify s.currentThreadId fun t : Thread =>
    { t with
      mycontext := ⟨[],false⟩
      tState := .notAssigned
      killOnNextRun := false
      waitQueue := none }).self = s.self := by
    simp [State.self,State.inst,State.modify]
  simp only [threadExit]
  rw [hself]
  rw [exited_eq h]

/-- `thread_exit` hands control to the next ready thread. -/
theorem threadExit_next {marked : Bool} {next : Tid} {rest : List Tid}
    (h : ∀ t ∈ s.waitQueues (.tWait s.currentThreadId), t ≠ -1)
    (hn : s.readyQueue ++ s.waitQueues (.tWait s.currentThreadId) = next::rest) (h₁ : next ≠ -1) :
    threadExit marked s = switchTo next { exited marked s with readyQueue := rest } := by
  have hr : (exited marked s).readyQueue = next::rest := hn
  simp [threadExit_eq h,removeNextReadyThread,hr,h₁]

/-- `thread_exit` of the last ready thread ends the process. -/
theorem threadExit_last (marked : Bool)
    (hn : s.readyQueue ++ s.waitQueues (.tWait s.currentThreadId) = []) :
    (threadExit marked s).status = .exited ∧
      (threadExit marked s).history = .exited s.self marked :: s.history := by
  obtain ⟨hr,hw⟩ := List.append_eq_nil_iff.mp hn
  have h : ∀ t ∈ s.waitQueues (.tWait s.currentThreadId), t ≠ -1 := by simp [hw]
  simp [threadExit_eq h,removeNextReadyThread,freeTCBStacks,exited,hr,hw]

theorem view_threadExit (marked : Bool) {next : Tid} {rest : List Tid}
    (h : ∀ t ∈ s.waitQueues (.tWait s.currentThreadId), t ≠ -1)
    (hn : s.readyQueue ++ s.waitQueues (.tWait s.currentThreadId) = next::rest) (h₁ : next ≠ -1)
    (hc : next ≠ s.currentThreadId) :
    view (threadExit marked s) = (view s).exit marked next rest := by
  rw [threadExit_next h hn h₁]
  refine Sched.ext (funext fun t => ?_) rfl rfl rfl rfl rfl rfl
  by_cases htx : t = next
  · subst htx
    simp [view,switchTo,setcontext,exited,State.modify,Sched.exit,stack,slot,hc]
  · by_cases htc : t = s.currentThreadId
    · subst htc
      simp [view,switchTo,setcontext,exited,State.modify,Sched.exit,stack,slot,htx,pendingCall]
    · simp [view,switchTo,setcontext,exited,State.modify,Sched.exit,stack,slot,htx,htc]

/-- The state in which `thread_create` returns the new identifier. -/
def created (id : Tid) (rest : List Tid) (s : State) : State :=
  { s with
    TCBs := fun t =>
      if t = id then
        { s.TCBs t with
          mycontext := ⟨[.stubEntry],false⟩
          stackToFree := true
          tState := .ready
          generation := (s.TCBs t).generation+1 }
      else if t = s.currentThreadId then { s.TCBs t with mycontext := ⟨s.frames,false⟩ }
      else s.TCBs t
    readyQueue := s.readyQueue ++ [id]
    availableThreadIds := rest
    history := .created ⟨id,(s.TCBs id).generation+1⟩ :: s.history }

theorem threadCreate_eq {id : Tid} {rest : List Tid} (ha : s.availableThreadIds = id::rest)
    (h₁ : id ≠ -1) (hc : id ≠ s.currentThreadId) :
    threadCreate true s = return_ id (created id rest s) := by
  simp only [threadCreate,removeFromHead,State.modify,ha,h₁,if_false,Bool.true_eq_false]
  congr 1
  simp only [addToTail,State.record,State.inst,created,if_true]
  congr 1
  · funext t
    by_cases ht : t = id <;> simp [ht,hc]
  · simp [hc]

theorem view_created {id : Tid} {rest : List Tid} (hc : id ≠ s.currentThreadId) :
    view (created id rest s) = (view s).create id rest := by
  refine Sched.ext (funext fun t => ?_) rfl rfl rfl rfl rfl rfl
  by_cases ht : t = id
  · subst ht
    simp [view,created,Sched.create,stack,slot,hc,pendingCall]
  · by_cases htc : t = s.currentThreadId
    · subst htc
      simp [view,created,Sched.create,stack,slot,ht]
    · simp [view,created,Sched.create,stack,slot,ht,htc]

/-! ### Calls and returns -/

/-- The state in which the called function starts. -/
theorem view_call {c : Call} {k : List Frame} {enabled : Bool} :
    view { s.record (.call s.self c enabled) with frames := .call c::k } =
      ((view s).record (.call (view s).self c enabled)).modify (view s).current
        fun t => { t with pending := some c } := by
  refine Sched.ext (funext fun t => ?_) rfl rfl rfl rfl rfl rfl
  by_cases ht : t = s.currentThreadId <;>
    simp [view,State.record,Sched.record,Sched.modify,stack,slot,ht,pendingCall]

theorem view_ret {c : Call} {v : ℤ} {k : List Frame} (enabled : Bool) (h : pendingCall k = none) :
    view { s.record (.ret s.self c v enabled) with frames := k } = (view s).ret c v enabled := by
  refine Sched.ext (funext fun t => ?_) rfl rfl rfl rfl rfl rfl
  by_cases ht : t = s.currentThreadId <;>
    simp [view,State.record,Sched.ret,Sched.record,Sched.modify,stack,slot,ht,h]

end SchedulerView
end OsLabs

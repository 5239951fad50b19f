import OsLabs.SchedulerView

/-!
# The thread package refines the abstract scheduler

`Control` says at which control points the running thread and the suspended ones can
be between two steps. From such a state every step of the package is a sequence of
moves of the scheduler that shows only the defects whose triggering condition the step
meets, and ends in such a state again, or in the end of the process.
-/

namespace OsLabs
namespace SchedulerRefinement

open ThreadModel Scheduler SchedulerView

/-! ### Control points -/

/-- The bottom of a stack: the main thread's own code, or the one called by `thread_stub`. -/
inductive OwnBase : List Frame → Prop
  | main : OwnBase [.own]
  | thread : OwnBase [.own,.stubReturn]

/-- The calls that run `wait_queue_destroy`. -/
def Destroys : Call → WaitQueue → Prop
  | .lockDestroy lock, queue => queue = .waitOnLock lock
  | .cvDestroy cv, queue => queue = .waitOnCv cv
  | .waitQueueDestroy n, queue => n.map .created = some queue
  | _, _ => False

/-- The points where interrupts can be enabled. -/
inductive Point : List Frame → Prop
  | own {b} : OwnBase b → Point b
  | responsibilities : Point [.stubResponsibilities]
  | killCheck : Point [.stubKillCheck]
  | stubReturn : Point [.stubReturn]
  | killed {b} (tid : Tid) : OwnBase b → Point (.killed tid::.call (.threadKill tid)::b)
  | destroy {b c queue} : Destroys c queue → OwnBase b → Point (.destroy queue::.call c::b)
  | destroyed {b c queue} : Destroys c queue → OwnBase b → Point (.destroyed queue::.call c::b)

/-- Who has called `thread_yield`, and from where. -/
inductive Yielder : List Frame → Prop
  | threadYield {b} (w : Tid) : OwnBase b → Yielder (.call (.threadYield w)::b)
  | threadSleep {b} (q : Option ℕ) (e : Bool) : OwnBase b →
      Yielder (.sleep e::.call (.threadSleep q)::b)
  | threadWait {b} (tid : Tid) (e : Bool) : OwnBase b →
      Yielder (.sleep false::.wait tid e::.call (.threadWait tid)::b)
  | lockAcquire {b} (l : ℕ) (e : Bool) : OwnBase b →
      Yielder (.sleep false::.acquire l e::.call (.lockAcquire l)::b)
  | cvSlept {b} (cv l : ℕ) (e : Bool) : OwnBase b →
      Yielder (.sleep false::.cvSlept cv l e::.call (.cvWait cv l)::b)
  | cvReacquired {b} (cv l : ℕ) (e e' : Bool) : OwnBase b →
      Yielder (.sleep false::.acquire l e::.cvReacquired cv l e'::.call (.cvWait cv l)::b)
  | timer {p} : Point p → Yielder (.handler::p)

/-- The points inside `lock_acquire` and `cv_wait` to which a failed sleep returns. -/
inductive Midway : List Frame → Prop
  | lockAcquire {b} (l : ℕ) (e : Bool) : OwnBase b →
      Midway (.acquire l e::.call (.lockAcquire l)::b)
  | cvSlept {b} (cv l : ℕ) (e : Bool) : OwnBase b → Midway (.cvSlept cv l e::.call (.cvWait cv l)::b)
  | cvReacquired {b} (cv l : ℕ) (e e' : Bool) : OwnBase b →
      Midway (.acquire l e::.cvReacquired cv l e'::.call (.cvWait cv l)::b)

/-- The points of `thread_stub` before the kill mark is read. -/
def Unchecked (k : List Frame) : Prop := k = [.stubResponsibilities] ∨ k = [.stubKillCheck]

def Suspended (th : Thread) : Prop :=
  th.mycontext.interrupts = false ∧
    (th.mycontext.frames = [.stubEntry] ∨ ∃ n o tk e k,
      th.mycontext.frames = .yielded n o tk e::k ∧ Yielder k ∧ th.setcontextCalled = true)

def Others (s : State) : Prop :=
  ∀ t, t ≠ s.currentThreadId → (s.TCBs t).tState = .ready → Suspended (s.TCBs t)

/-- Where the running thread is between two steps. -/
inductive Here (s : State) : Prop
  | entry : s.frames = [.stubEntry] → s.interrupts = false → Here s
  | point : Point s.frames → (s.tcb.killOnNextRun = true → Unchecked s.frames) → Here s
  | midway : Midway s.frames → s.interrupts = false → s.tcb.killOnNextRun = false → Here s
  | yielded (n o tk : Tid) (e : Bool) (k : List Frame) : s.frames = .yielded n o tk e::k →
      Yielder k → s.interrupts = false → s.tcb.setcontextCalled = true → Here s

structure Control (D : Set Defect) (s : State) : Prop where
  others : Others s
  here : Here s
  settled : (view s).SettledAt D s.currentThreadId

/-- What one step can come to. -/
inductive Outcome (D : Set Defect) (σ : Sched) (s : State) : Prop
  | goes : Moves D σ (view s) → (s.status = .running → Control D s) → Outcome D σ s
  | halts (σ' : Sched) (marked : Bool) : Moves D σ σ' → s.status = .exited →
      s.history = .exited σ'.self marked :: σ'.history → σ'.me.killOnNextRun = marked →
      Outcome D σ s

theorem Outcome.after {D : Set Defect} {σ σ' : Sched} {s : State} (h : Moves D σ σ')
    (ho : Outcome D σ' s) : Outcome D σ s := by
  cases ho with
  | goes hm hc => exact .goes (h.trans hm) hc
  | halts σ'' marked hm hs hh hk => exact .halts σ'' marked (h.trans hm) hs hh hk

/-- What holds inside the package, at any point of a step. -/
structure Inside (D : Set Defect) (s : State) : Prop extends Sound D (view s) where
  others : Others s

variable {D : Set Defect} {s : State}

theorem OwnBase.pendingCall {b : List Frame} (h : OwnBase b) : pendingCall b = none := by
  cases h <;> rfl

theorem OwnBase.here {b : List Frame} (h : OwnBase b) (hf : s.frames = b)
    (hk : s.tcb.killOnNextRun = false) : Here s :=
  .point (hf ▸ .own h) fun hk' => absurd (hk.symm.trans hk') (by simp)

/-- A state without a call in progress is settled. -/
theorem settledAt_of_pending_none (h : pendingCall s.frames = none) :
    (view s).SettledAt D s.currentThreadId :=
  .of_none (by simpa [view,stack,slot] using h)

theorem Inside.ready_ne (h : Inside D s) {t : Tid} (ht : t ∈ s.readyQueue) : t ≠ -1 := by
  rintro rfl
  exact absurd (h.range .ready _ ht).1 (by decide)

theorem Inside.waits_ne (h : Inside D s) (q : WaitQueue) {t : Tid} (ht : t ∈ s.waitQueues q) :
    t ≠ -1 := by
  rintro rfl
  exact absurd (h.range (.waiting q) _ ht).1 (by decide)

theorem Inside.ready_ne_current (h : Inside D s) {t : Tid} (ht : t ∈ s.readyQueue) :
    t ≠ s.currentThreadId := h.ne_current_of_ready ht

/-- A suspended thread that is switched to stands at one of the points of `Here`. -/
theorem Suspended.here {th : Thread} (h : Suspended th) (hf : s.frames = th.mycontext.frames)
    (hi : s.interrupts = th.mycontext.interrupts)
    (hc : s.tcb.setcontextCalled = th.setcontextCalled) : Here s := by
  obtain ⟨hoff,hent | ⟨n,o,tk,e,k,hy,hk,hset⟩⟩ := h
  · exact .entry (hf.trans hent) (hi.trans hoff)
  · exact .yielded n o tk e k (hf.trans hy) hk (hi.trans hoff) (hc.trans hset)

/-! ### Exit, return and yield -/

theorem threadExit_outcome {marked : Bool} (h : Inside D s) (hk : s.tcb.killOnNextRun = marked) :
    Outcome D (view s) (threadExit marked s) := by
  have hw : ∀ t ∈ s.waitQueues (.tWait s.currentThreadId), t ≠ -1 := fun t => h.waits_ne _
  have hk' : (view s).me.killOnNextRun = marked := by rw [view_me]; exact hk
  cases hn : s.readyQueue ++ s.waitQueues (.tWait s.currentThreadId) with
  | nil =>
    obtain ⟨hst,hh⟩ := threadExit_last marked hn
    exact .halts (view s) marked .refl hst hh hk'
  | cons next rest =>
    obtain ⟨h₁,hc,hrd⟩ : next ≠ -1 ∧ next ≠ s.currentThreadId ∧ (s.TCBs next).tState = .ready := by
      have hm : next ∈ s.readyQueue ++ s.waitQueues (.tWait s.currentThreadId) := by simp [hn]
      rcases List.mem_append.mp hm with hm | hm
      · exact ⟨h.ready_ne hm,h.ready_ne_current hm,h.ready next hm⟩
      · exact ⟨h.waits_ne _ hm,h.ne_current_of_waiting hm,h.waiting _ next hm⟩
    have hv := view_threadExit marked hw hn h₁ hc
    refine .goes (.single ?_) fun _ => ⟨?_,?_,?_⟩
    · rw [hv]
      exact .exit marked next rest hk' hn
    · rw [threadExit_next hw hn h₁]
      intro t ht hr
      have ht' : t ≠ next := ht
      by_cases htc : t = s.currentThreadId
      · simp [switchTo,setcontext,exited,State.modify,htc,hc.symm] at hr
      · have hr' : (s.TCBs t).tState = .ready := by
          simpa [switchTo,setcontext,exited,State.modify,ht',htc] using hr
        simpa [switchTo,setcontext,exited,State.modify,ht',htc] using h.others t htc hr'
    · refine (h.others next hc hrd).here ?_ ?_ ?_ <;> rw [threadExit_next hw hn h₁] <;>
        simp [switchTo,setcontext,exited,State.modify,State.tcb,hc]
    · rw [hv]
      exact h.settled.exit hc _

theorem returnTo_frames (v : ℤ) : ∀ (k : List Frame) (j : List Frame) (s : State),
    returnTo v k { s with frames := j } = returnTo v k s
  | [], _, _ => rfl
  | f::k, j, s => by
    cases f with
    | sleep e => exact returnTo_frames v k j { s with interrupts := e }
    | wait tid e => exact returnTo_frames tid k j { s with interrupts := e }
    | cvReacquired cv l e => exact returnTo_frames v k j { s with interrupts := e }
    | _ => rfl

/-- `thread_sleep` returns what it got, with the interrupts as they were. -/
theorem return_sleep (v : ℤ) (s : State) :
    return_ v { s with frames := .sleep s.interrupts::s.frames } = return_ v s := by
  simp only [return_,returnTo]
  exact returnTo_frames v s.frames _ s

theorem ret_outcome {c : Call} {v : ℤ} {b : List Frame} {enabled : Bool} (h : Inside D s)
    (hb : OwnBase b) (hc : pendingCall s.frames = some c) (hk : s.tcb.killOnNextRun = false)
    (hp : PlainReturn D (view s) c v) :
    Outcome D (view s)
      { s.record (.ret s.self c v enabled) with interrupts := enabled, frames := b } := by
  have hv := view_ret (s := { s with interrupts := enabled }) (c := c) (v := v) enabled
    hb.pendingCall
  refine .goes (.single ?_) fun _ => ⟨h.others,hb.here rfl hk,settledAt_of_pending_none hb.pendingCall⟩
  have hm : Move D (view s) ((view s).ret c v enabled) :=
    .ret c v enabled (by rw [view_me]; exact hk) (by rw [view_me]; exact hc) hp
  exact hv ▸ hm

/-- `thread_yield` and `thread_sleep` return to their caller. -/
theorem return_outcome {v : ℤ} (h : Inside D s) (hy : Yielder s.frames)
    (hk : s.tcb.killOnNextRun = true → ∃ k, s.frames = .handler::k ∧ Unchecked k)
    (hs : (view s).SettledAt D s.currentThreadId) : Outcome D (view s) (return_ v s) := by
  have hk' : (∀ k, s.frames ≠ .handler::k) → s.tcb.killOnNextRun = false := by
    intro hn
    by_contra hc
    obtain ⟨k,hf,_⟩ := hk (by simpa using hc)
    exact hn k hf
  have midway : ∀ {k : List Frame}, Midway k → (∀ k, s.frames ≠ .handler::k) →
      pendingCall k = pendingCall s.frames →
      Outcome D (view s) { s with interrupts := false, frames := k } := by
    intro k hm hn hp
    have hv : view { s with interrupts := false, frames := k } = view s :=
      view_frames (s := { s with interrupts := false }) hp
    exact .goes (by rw [hv]) fun _ => ⟨h.others,.midway hm rfl (hk' hn),by rw [hv]; exact hs⟩
  generalize hf : s.frames = k at hy
  cases hy with
  | threadYield w hb =>
    simp only [return_,hf,returnTo]
    exact ret_outcome h hb (by simp [hf,pendingCall]) (hk' (by simp [hf])) trivial
  | threadSleep q e hb =>
    simp only [return_,hf,returnTo]
    exact ret_outcome h hb (by simp [hf,pendingCall]) (hk' (by simp [hf])) trivial
  | threadWait tid e hb =>
    simp only [return_,hf,returnTo]
    exact ret_outcome h hb (by simp [hf,pendingCall]) (hk' (by simp [hf])) fun _ _ => hs
  | lockAcquire l e hb =>
    simp only [return_,hf,returnTo]
    exact midway (.lockAcquire l e hb) (by simp [hf]) (by simp [hf,pendingCall])
  | cvSlept cv l e hb =>
    simp only [return_,hf,returnTo]
    exact midway (.cvSlept cv l e hb) (by simp [hf]) (by simp [hf,pendingCall])
  | cvReacquired cv l e e' hb =>
    simp only [return_,hf,returnTo]
    exact midway (.cvReacquired cv l e e' hb) (by simp [hf]) (by simp [hf,pendingCall])
  | timer hp =>
    rename_i k
    simp only [return_,hf,returnTo]
    have hv : view { s with interrupts := true, frames := k } = view s :=
      view_frames (s := { s with interrupts := true }) (by simp [hf,pendingCall])
    refine .goes (by rw [hv]) fun _ => ⟨h.others,.point hp fun hm => ?_,by rw [hv]; exact hs⟩
    obtain ⟨j,hj,hu⟩ := hk hm
    obtain rfl : k = j := by simpa [hf] using hj
    exact hu

theorem freeTCBStacks_TCBs (s : State) (t : Tid) :
    ∃ b, (freeTCBStacks s).TCBs t = { s.TCBs t with stackToFree := b } := by
  simp only [freeTCBStacks]
  split
  · exact ⟨false,rfl⟩
  · exact ⟨_,rfl⟩

theorem Others.freeTCBStacks (h : Others s) : Others (freeTCBStacks s) := by
  intro t ht hr
  obtain ⟨b,hb⟩ := freeTCBStacks_TCBs s t
  rw [hb] at hr ⊢
  exact h t ht hr

/-- The state in which `getcontext` of `thread_yield` returns and the stacks are freed. -/
def gotContext (x : Tid) (enabled : Bool) (s : State) : State :=
  freeTCBStacks ({ s with interrupts := false, readyQueue := s.readyQueue.erase x }.modify
    s.currentThreadId fun t =>
      { t with mycontext := ⟨.yielded x s.currentThreadId x enabled::s.frames,false⟩ })

theorem view_gotContext (x : Tid) (enabled : Bool) (s : State) :
    view (gotContext x enabled s) = { view s with ready := (view s).ready.erase x } := by
  rw [gotContext,view_freeTCBStacks]
  exact view_mycontext (s := { s with interrupts := false, readyQueue := s.readyQueue.erase x }) _

theorem gotContext_tcb (x : Tid) (enabled : Bool) (s : State) :
    ∃ b, (gotContext x enabled s).tcb = { s.tcb with
      mycontext := ⟨.yielded x s.currentThreadId x enabled::s.frames,false⟩, stackToFree := b } := by
  obtain ⟨b,hb⟩ := freeTCBStacks_TCBs ({ s with
    interrupts := false, readyQueue := s.readyQueue.erase x }.modify s.currentThreadId fun t =>
      { t with mycontext := ⟨.yielded x s.currentThreadId x enabled::s.frames,false⟩ })
    s.currentThreadId
  refine ⟨b,?_⟩
  have ht : (gotContext x enabled s).tcb = (gotContext x enabled s).TCBs s.currentThreadId := rfl
  rw [ht,gotContext,hb]
  simp [State.modify,State.tcb]

theorem Others.gotContext (h : Others s) (x : Tid) (enabled : Bool) :
    Others (gotContext x enabled s) := by
  refine Others.freeTCBStacks fun t ht hr => ?_
  have ht' : t ≠ s.currentThreadId := ht
  simp only [State.modify,ht',if_false] at hr ⊢
  exact h t ht' hr

theorem yieldTo_eq (x : Tid) (enabled : Bool) (s : State) :
    yieldTo x enabled { s with interrupts := false, readyQueue := s.readyQueue.erase x } =
      if (gotContext x enabled s).tcb.killOnNextRun then threadExit true (gotContext x enabled s)
      else if (gotContext x enabled s).tcb.setcontextCalled = false then
        yieldingBlock x s.currentThreadId (gotContext x enabled s)
      else return_ x { (gotContext x enabled s).modify s.currentThreadId
        (fun t => { t with setcontextCalled := false }) with interrupts := enabled } := rfl

/-- What a caller of `thread_yield` has to bring. -/
structure Yields (D : Set Defect) (s : State) : Prop extends Inside D s where
  yielder : Yielder s.frames
  unchecked : s.tcb.killOnNextRun = true → ∃ k, s.frames = .handler::k ∧ Unchecked k
  suspends : ∀ c, pendingCall s.frames = some c → Suspends D (view s) c s.tcb.waitQueue

/-- `thread_yield` goes on after a switch back to the thread, or after none. -/
theorem resumed_outcome {x : ℤ} (enabled : Bool) (h : Inside D s) (hy : Yielder s.frames)
    (hk : s.tcb.killOnNextRun = false) (hc : s.tcb.setcontextCalled = true)
    (hs : (view s).SettledAt D s.currentThreadId) :
    Outcome D (view s) (return_ x { s.modify s.currentThreadId
      (fun t => { t with setcontextCalled := false }) with interrupts := enabled }) := by
  have hv : view { s.modify s.currentThreadId
      (fun t => { t with setcontextCalled := false }) with interrupts := enabled } =
      (view s).modify (view s).current fun t => { t with setcontextCalled := false } :=
    view_modify (s := s) (t := s.currentThreadId) (f := fun t => { t with setcontextCalled := false })
      (fun _ => rfl) (fun _ _ => rfl)
  have hm : Move D (view s) (view { s.modify s.currentThreadId
      (fun t => { t with setcontextCalled := false }) with interrupts := enabled }) := by
    rw [hv]
    exact .resume (by rw [view_me]; exact hk) (by rw [view_me]; exact hc)
  refine (return_outcome ⟨hm.sound h.toSound,?_⟩ hy ?_ ?_).after (.single hm)
  · intro t ht hr
    have ht' : t ≠ s.currentThreadId := ht
    simp only [State.modify,ht',if_false] at hr ⊢
    exact h.others t ht' hr
  · intro hk'
    simp [State.tcb,State.modify] at hk'
    exact absurd (hk.symm.trans hk') (by simp)
  · rw [hv]
    refine hs.mono (n := []) ?_ ?_ rfl (by simp) (fun _ hw => hw) <;> simp only [Sched.modify] <;>
      split <;> rfl

theorem yieldTo_outcome {x : Tid} {enabled : Bool} (h : Yields D s) (hx : x ∈ s.readyQueue)
    (hl : .lose ∈ D ∨ s.tcb.killOnNextRun = false ∧ s.tcb.setcontextCalled = false)
    (hs : s.tcb.setcontextCalled = true → (view s).SettledAt D s.currentThreadId) :
    Outcome D (view s)
      (yieldTo x enabled { s with interrupts := false, readyQueue := s.readyQueue.erase x }) := by
  have hv := view_gotContext x enabled s
  obtain ⟨b,hb⟩ := gotContext_tcb x enabled s
  have ho : Others (gotContext x enabled s) := h.others.gotContext x enabled
  have hne := h.ready_ne_current hx
  -- the two ways to lose `x` need the defect
  have lose : (s.tcb.setcontextCalled = true ∨ s.tcb.killOnNextRun = true) →
      Move D (view s) (view (gotContext x enabled s)) := by
    intro hf
    rw [hv]
    refine .lose x ?_ hx (by rw [view_me]; exact hf)
    rcases hl with hl | ⟨hk,hc⟩
    · exact hl
    · simp [hk,hc] at hf
  rw [yieldTo_eq]
  simp only [hb]
  split
  · rename_i hk
    have hm := lose (.inr hk)
    exact (threadExit_outcome ⟨hm.sound h.toSound,ho⟩ (by rw [hb]; exact hk)).after (.single hm)
  · rename_i hk
    have hk' : s.tcb.killOnNextRun = false := by simpa using hk
    split
    · rename_i hc
      have hsw : view (yieldingBlock x s.currentThreadId (gotContext x enabled s)) =
          (view s).switch x :=
        view_yieldingBlock (s := gotContext x enabled s) hne hv (by rw [hb]; rfl)
      have hsu : ∀ c, (view s).me.pending = some c → Suspends D (view s) c (view s).me.waitQueue := by
        rw [view_me]; exact h.suspends
      have heq := yieldingBlock_eq (s := gotContext x enabled s) (x := x) hne
      have hy : yieldingBlock x s.currentThreadId (gotContext x enabled s) =
        yieldingBlock x (gotContext x enabled s).currentThreadId (gotContext x enabled s) := rfl
      refine .goes (.single ?_) fun _ => ⟨?_,?_,?_⟩
      · rw [hsw]
        exact .switch x hx (by rw [view_me]; exact hk') (by rw [view_me]; exact hc) hsu
      · rw [hy,heq]
        intro t ht hr
        have htx : t ≠ x := ht
        by_cases htc : t = s.currentThreadId
        · subst htc
          have hg : (gotContext x enabled s).TCBs s.currentThreadId = (gotContext x enabled s).tcb := rfl
          have hcc : s.currentThreadId = (gotContext x enabled s).currentThreadId := rfl
          simp only [htx,if_false,← hcc,if_true,hg,hb]
          exact ⟨rfl,.inr ⟨_,_,_,_,_,rfl,h.yielder,rfl⟩⟩
        · have htc' : t ≠ (gotContext x enabled s).currentThreadId := htc
          simp only [htx,if_false,htc'] at hr ⊢
          exact ho t htc' hr
      · have hxr : ((gotContext x enabled s).TCBs x).tState = .ready := by
          have := h.ready x hx
          have hsl := congrFun (congrArg Sched.slots hv) x
          exact (congrArg Slot.tState hsl).trans this
        refine (ho x hne hxr).here ?_ ?_ ?_ <;> rw [hy,heq]
        simp [State.tcb]
      · rw [hsw]
        exact h.settled.switch h.toLockInv hsu _
    · rename_i hc
      have hc' : s.tcb.setcontextCalled = true := by simpa using hc
      refine (resumed_outcome (x := x) enabled (s := gotContext x enabled s)
        ⟨(lose (.inl hc')).sound h.toSound,ho⟩ h.yielder (by rw [hb]; exact hk')
        (by rw [hb]; exact hc') ?_).after (.single (lose (.inl hc')))
      rw [hv]
      exact (hs hc').mono (n := []) rfl rfl rfl (by simp) (fun _ hw => hw)

/-! ### Yield and sleep -/

/-- `thread_yield` fails, or takes a ready thread out of its queue. -/
theorem threadYield_cases (w : Tid) (s : State) : (∃ v, threadYield w s = return_ v s) ∨
    ∃ x ∈ s.readyQueue, (w = threadAny ∨ w = x) ∧ threadYield w s =
      yieldTo x s.interrupts { s with interrupts := false, readyQueue := s.readyQueue.erase x } := by
  simp only [threadYield]
  split
  · exact .inl ⟨_,rfl⟩
  split
  · exact .inl ⟨_,rfl⟩
  split
  · exact .inl ⟨_,rfl⟩
  split
  · exact .inl ⟨_,rfl⟩
  split
  · cases hr : s.readyQueue with
    | nil => exact .inl ⟨threadNone,by simp [removeNextReadyThread]⟩
    | cons x rest =>
      by_cases hx : x = -1
      · exact .inl ⟨threadNone,by simp [removeNextReadyThread,hx]⟩
      · exact .inr ⟨x,by simp,.inl ‹_›,by simp [removeNextReadyThread,hx]⟩
  · by_cases hw : w ∈ s.readyQueue
    · by_cases hx : w = -1
      · subst hx; exact .inl ⟨threadNone,by simp [removeFromReadyQueue,hw]⟩
      · exact .inr ⟨w,hw,.inr rfl,by simp [removeFromReadyQueue,hw,hx]⟩
    · exact .inl ⟨threadNone,by simp [removeFromReadyQueue,hw]⟩

theorem threadYield_ready {x : Tid} (hx : x ∈ s.readyQueue) (h₀ : 0 ≤ x) (h₁ : x < threadMaxThreads)
    (hn : (s.TCBs x).tState = .ready) (hc : x ≠ s.currentThreadId) : threadYield x s =
      yieldTo x s.interrupts { s with interrupts := false, readyQueue := s.readyQueue.erase x } := by
  have h₂ : x ≠ -1 := by rintro rfl; exact absurd h₀ (by decide)
  have h₃ : ¬ (x ≥ threadMaxThreads ∨ x < -7) := by
    rintro (h | h)
    · exact absurd h₁ (not_lt.mpr h)
    · exact absurd (lt_of_le_of_lt h₀ h) (by decide)
  have h₄ : threadSelf ≠ x := by rintro rfl; exact absurd h₀ (by decide)
  simp only [threadYield,removeFromReadyQueue,h₃,h₄,hc,hn,threadAny,h₂,hx,if_false,if_true,reduceCtorEq,
    and_false]

/-- A thread at the head of the ready queue is taken. -/
theorem threadYield_head {x : Tid} {rest : List Tid} (h : Inside D s)
    (hr : s.readyQueue = x::rest) : threadYield x s =
      yieldTo x s.interrupts { s with interrupts := false, readyQueue := s.readyQueue.erase x } := by
  have hx : x ∈ s.readyQueue := by simp [hr]
  obtain ⟨h₀,h₁⟩ := h.ready_range hx
  exact threadYield_ready hx h₀ h₁ (h.ready x hx) (h.ready_ne_current hx)

theorem threadYield_outcome {w : Tid} (h : Yields D s)
    (hl : .lose ∈ D ∨ ((if w = threadAny then s.readyQueue ≠ [] else w ∈ s.readyQueue) →
      s.tcb.killOnNextRun = false ∧ s.tcb.setcontextCalled = false))
    (hs : (view s).SettledAt D s.currentThreadId) : Outcome D (view s) (threadYield w s) := by
  rcases threadYield_cases w s with ⟨v,hv⟩ | ⟨x,hx,hw,hv⟩
  · rw [hv]
    exact return_outcome h.toInside h.yielder h.unchecked hs
  · rw [hv]
    refine yieldTo_outcome h hx (hl.imp_right fun hl => hl ?_) fun _ => hs
    rcases hw with rfl | rfl
    · simp only [if_true]
      exact List.ne_nil_of_mem hx
    · have := h.ready_ne hx
      simp [threadAny,this,hx]

theorem settledAt_modify {σ : Sched} {queue : WaitQueue} {t : Tid} (h : σ.SettledAt D t) :
    (σ.modify σ.current fun t => { t with waitQueue := some queue }).SettledAt D t := by
  refine h.mono (n := []) ?_ ?_ rfl (by simp) (fun _ hw => hw) <;> simp only [Sched.modify] <;>
    split <;> rfl

/-- A change of the requested queue does not change where a call may suspend. -/
theorem suspends_modify {σ : Sched} {c : Call} {q : Option WaitQueue} {queue : WaitQueue}
    (h : Suspends D σ c q) : Suspends D
      (σ.modify σ.current fun t => { t with waitQueue := some queue }) c q := by
  have ht : ∀ t, ((σ.modify σ.current fun t => { t with waitQueue := some queue }).slots t).tState =
      (σ.slots t).tState := fun t => by simp only [Sched.modify]; split <;> rfl
  have hp : ∀ t, ((σ.modify σ.current fun t => { t with waitQueue := some queue }).slots t).pending =
      (σ.slots t).pending := fun t => by simp only [Sched.modify]; split <;> rfl
  have hk : ∀ lock, σ.Kept D lock →
      (σ.modify σ.current fun t => { t with waitQueue := some queue }).Kept D lock :=
    fun lock hk => hk.imp_right fun hk t => by rw [hp]; exact hk t
  cases c with
  | threadWait tid => exact ⟨h.1,by rw [ht]; exact h.2⟩
  | lockAcquire lock => exact ⟨h.1,hk lock h.2⟩
  | cvWait cv lock =>
    refine Or.imp_right (fun h => ⟨h.1,hk lock h.2.1,settledAt_modify h.2.2⟩) h
  | threadKill tid => exact settledAt_modify h
  | _ => exact h

/-- `thread_sleep` on a queue, called with interrupts disabled or by the thread itself. -/
theorem threadSleep_outcome {queue : WaitQueue} (h : Inside D s)
    (hy : Yielder (.sleep s.interrupts::s.frames)) (hk : s.tcb.killOnNextRun = false)
    (hq : ∀ lock, queue = .waitOnLock lock →
      (view s).Acquired lock ∧ ∃ c, pendingCall s.frames = some c ∧ Acquires lock c)
    (hu : ∀ c, pendingCall s.frames = some c → Suspends D (view s) c (some queue))
    (hl : .lose ∈ D ∨ (s.readyQueue ≠ [] → s.tcb.setcontextCalled = false))
    (hs : (view s).SettledAt D s.currentThreadId ∨
      s.readyQueue ≠ [] ∧ s.tcb.setcontextCalled = false) :
    Outcome D (view s) (threadSleep (some queue) s) := by
  cases hr : s.readyQueue with
  | nil =>
    have hs' := hs.resolve_right (by simp [hr])
    have hv : view { s with frames := .sleep s.interrupts::s.frames } = view s := view_frames rfl
    simp only [threadSleep,hr]
    rw [← return_sleep,← hv]
    refine return_outcome ⟨hv ▸ h.toSound,h.others⟩ hy ?_ (hv ▸ hs')
    intro hk'
    exact absurd (hk.symm.trans hk') (by simp)
  | cons x rest =>
    simp only [threadSleep,hr]
    let s₁ := s.modify s.currentThreadId fun t => { t with waitQueue := some queue }
    let s₂ : State := { s₁ with interrupts := false, frames := .sleep s.interrupts::s.frames }
    have hv₁ : view s₁ = (view s).modify (view s).current fun t => { t with waitQueue := some queue } :=
      view_modify (s := s) (t := s.currentThreadId) (f := fun t => { t with waitQueue := some queue })
        (fun _ => rfl) (fun _ _ => rfl)
    have hv₂ : view s₂ = view s₁ := view_frames (s := { s₁ with interrupts := false }) rfl
    have hm : Move D (view s) (view s₂) := by
      rw [hv₂,hv₁]
      exact .request queue (by rw [view_me]; exact hq)
    have ho : Others s₂ := by
      intro t ht hr
      have ht' : t ≠ s.currentThreadId := ht
      simp only [s₂,s₁,State.modify,ht',if_false] at hr ⊢
      exact h.others t ht' hr
    have hin : Inside D s₂ := ⟨hm.sound h.toSound,ho⟩
    have hk₂ : s₂.tcb.killOnNextRun = s.tcb.killOnNextRun := by
      simp [s₂,s₁,State.tcb,State.modify]
    have hc₂ : s₂.tcb.setcontextCalled = s.tcb.setcontextCalled := by
      simp [s₂,s₁,State.tcb,State.modify]
    have hyields : Yields D s₂ := by
      refine ⟨hin,hy,fun hk' => ?_,fun c hc => ?_⟩
      · exact absurd (hk.symm.trans (hk₂ ▸ hk')) (by simp)
      · have hsu := hu c hc
        have hw : s₂.tcb.waitQueue = some queue := by simp [s₂,s₁,State.tcb,State.modify]
        rw [hw,hv₂,hv₁]
        exact suspends_modify hsu
    refine Outcome.after (.single hm) ?_
    have hh := threadYield_head (s := s₂) hin (x := x) hr
    change Outcome D (view s₂) (threadYield x s₂)
    rw [hh]
    refine yieldTo_outcome hyields (by simp [s₂,s₁,hr,State.modify]) ?_ ?_
    · exact hl.imp_right fun hl => ⟨hk₂.trans hk,hc₂.trans (hl (by simp [hr]))⟩
    · intro hc
      rw [hc₂] at hc
      have hs' := hs.resolve_right (by simp [hc])
      rw [hv₂,hv₁]
      exact settledAt_modify hs'

/-! ### Locks -/

/-- The caller of the loop of `lock_acquire`. -/
inductive Acquirer (lock : ℕ) : List Frame → Call → Prop
  | lockAcquire {b} : OwnBase b → Acquirer lock (.call (.lockAcquire lock)::b) (.lockAcquire lock)
  | cvWait {b} (cv : ℕ) (e : Bool) : OwnBase b →
      Acquirer lock (.cvReacquired cv lock e::.call (.cvWait cv lock)::b) (.cvWait cv lock)

theorem Acquirer.pendingCall {lock : ℕ} {k : List Frame} {c : Call} (h : Acquirer lock k c) :
    pendingCall k = some c := by
  cases h <;> rfl

theorem Acquirer.acquires {lock : ℕ} {k : List Frame} {c : Call} (h : Acquirer lock k c) :
    Acquires lock c := by
  cases h <;> rfl

theorem Acquirer.yielder {lock : ℕ} {k : List Frame} {c : Call} (h : Acquirer lock k c) (e : Bool) :
    Yielder (.sleep false::.acquire lock e::k) := by
  cases h with
  | lockAcquire hb => exact .lockAcquire lock e hb
  | cvWait cv e' hb => exact .cvReacquired cv lock e e' hb

theorem Acquirer.suspends {lock : ℕ} {k : List Frame} {c : Call} (h : Acquirer lock k c) {σ : Sched}
    (hk : σ.Kept D lock) (hs : σ.SettledAt D σ.current) :
    Suspends D σ c (some (.waitOnLock lock)) := by
  cases h with
  | lockAcquire => exact ⟨rfl,hk⟩
  | cvWait => exact .inr ⟨rfl,hk,hs⟩

theorem Acquirer.returnTo {lock : ℕ} {k : List Frame} {c : Call} (h : Acquirer lock k c) (v : ℤ)
    (s : State) : ∃ b e, OwnBase b ∧
      returnTo v k s = { s.record (.ret s.self c v e) with interrupts := e, frames := b } := by
  cases h with
  | lockAcquire hb => exact ⟨_,_,hb,rfl⟩
  | cvWait cv e hb => exact ⟨_,_,hb,rfl⟩

theorem acquireLoop_outcome {lock : ℕ} {enabled : Bool} {c : Call} (h : Inside D s)
    (ha : Acquirer lock s.frames c) (hi : s.interrupts = false) (hk : s.tcb.killOnNextRun = false)
    (hl : .lose ∈ D ∨ ((view s).Acquired lock → s.readyQueue ≠ [] → s.tcb.setcontextCalled = false))
    (hd : (view s).Acquired lock → (view s).Kept D lock)
    (hs : (view s).SettledAt D s.currentThreadId) :
    Outcome D (view s) (acquireLoop lock enabled s) := by
  cases hlk : s.locks lock with
  | none =>
    simp only [acquireLoop,hlk]
    exact .goes .refl fun hr => absurd hr (by simp)
  | some l =>
    simp only [acquireLoop,hlk]
    split
    · rename_i hf
      obtain ⟨b,e,hb,hret⟩ := ha.returnTo 0
        { (s.setLock lock (some ⟨true,s.currentThreadId⟩)).record (.acquired s.self lock) with
          interrupts := enabled }
      have hret' : return_ 0
        { (s.setLock lock (some ⟨true,s.currentThreadId⟩)).record (.acquired s.self lock) with
          interrupts := enabled } = _ := hret
      rw [hret']
      refine .goes (.single ?_) fun _ => ⟨h.others,hb.here rfl hk,settledAt_of_pending_none hb.pendingCall⟩
      have hm : Move D (view s) _ := .acquire lock l c 0 e hlk hf (by rw [view_me]; exact hk)
        (by rw [view_me]; exact ha.pendingCall) ha.acquires hs
      have hv := view_ret (s := { (s.setLock lock (some ⟨true,s.currentThreadId⟩)).record
        (.acquired s.self lock) with interrupts := e }) (c := c) (v := 0) e hb.pendingCall
      exact hv ▸ hm
    · rename_i hf
      have hacq : (view s).Acquired lock := ⟨l,hlk,by simpa using hf⟩
      have hv : view { s with frames := .acquire lock enabled::s.frames } = view s := view_frames rfl
      rw [← hv]
      refine threadSleep_outcome ⟨hv ▸ h.toSound,h.others⟩ ?_ hk ?_ ?_ ?_ (.inl (hv ▸ hs))
      · change Yielder (.sleep s.interrupts::.acquire lock enabled::s.frames)
        rw [hi]
        exact ha.yielder enabled
      · intro lock' he
        obtain rfl : lock = lock' := by simpa using he
        exact ⟨hv ▸ hacq,c,ha.pendingCall,ha.acquires⟩
      · intro c' hc'
        obtain rfl : c = c' := Option.some.inj (ha.pendingCall.symm.trans hc')
        rw [hv]
        exact ha.suspends (hd hacq) hs
      · exact hl.imp_right fun hl => hl hacq

theorem ownsLock_iff {lock : ℕ} : ownsLock lock s = true ↔ (view s).Owns lock := by
  cases h : s.locks lock <;> simp [ownsLock,Sched.Owns,view,h]

theorem releaseLock_eq {lock : ℕ} (h : Inside D s) (ho : ownsLock lock s = true) :
    releaseLock lock s = { s with
      readyQueue := s.readyQueue ++ s.waitQueues (.waitOnLock lock)
      waitQueues := fun q => if q = .waitOnLock lock then [] else s.waitQueues q
      locks := fun l => if l = lock then some ⟨false,-1⟩ else s.locks l
      history := .released s.self lock ::
        (((s.waitQueues (.waitOnLock lock)).map fun t =>
          Event.woken (s.inst t) (.waitOnLock lock) .lockRelease).reverse ++
        .passed s.self lock :: s.history) } := by
  obtain ⟨l,rest,hq,hr,_,_,hs⟩ := threadWakeup_eq .lockRelease (.waitOnLock lock) 1
    (s.record (.passed s.self lock)) fun t => h.waits_ne _
  obtain rfl := hr rfl
  have hl : s.waitQueues (.waitOnLock lock) = l := by
    simpa [State.record] using hq
  simp only [releaseLock,ho,if_true]
  rw [hs]
  simp [State.setLock,State.record,State.self,State.inst,hl]

/-- `lock_release` by the owner: its ownership is checked, the waiters become ready, and the
lock is free. -/
theorem releaseLock_moves {lock : ℕ} {c : Call} (h : Inside D s) (ho : ownsLock lock s = true)
    (hk : s.tcb.killOnNextRun = false) (hc : pendingCall s.frames = some c) (hr : Releases lock c)
    (hq : ∀ lock, s.tcb.waitQueue ≠ some (.waitOnLock lock)) :
    Moves D (view s) (view (releaseLock lock s)) := by
  have hown : (view s).Owns lock := ownsLock_iff.mp ho
  have h₁ : Move D (view s) ((view s).record (.passed (view s).self lock)) :=
    .passed lock (by rw [view_me]; exact hk) hown
  have h₂ : Move D ((view s).record (.passed (view s).self lock)) _ :=
    .wake .lockRelease (.waitOnLock lock) (s.waitQueues (.waitOnLock lock)) []
      (List.append_nil _).symm rfl
  refine ((Relation.ReflTransGen.single h₁).tail h₂).tail ?_
  rw [releaseLock_eq h ho]
  refine Move.unlock lock c ?_ hown ?_ ?_ hr ?_
  · exact (congrArg Slot.killOnNextRun view_me).trans hk
  · simp [Sched.wake]
  · exact (congrArg Slot.pending view_me).trans hc
  · intro lock' hq'
    exact hq lock' ((congrArg Slot.waitQueue view_me).symm.trans hq')

theorem releaseLock_inside {lock : ℕ} {c : Call} (h : Inside D s) (ho : ownsLock lock s = true)
    (hk : s.tcb.killOnNextRun = false) (hc : pendingCall s.frames = some c) (hr : Releases lock c)
    (hq : ∀ lock, s.tcb.waitQueue ≠ some (.waitOnLock lock)) : Inside D (releaseLock lock s) := by
  refine ⟨Moves.sound (releaseLock_moves h ho hk hc hr hq) h.toSound,?_⟩
  rw [releaseLock_eq h ho]
  exact h.others

/-! ### Calls of the thread's own code -/

theorem return_call {c : Call} {b : List Frame} (v : ℤ) (hf : s.frames = .call c::b) :
    return_ v s = { s.record (.ret s.self c v s.interrupts) with
      interrupts := s.interrupts, frames := b } := by
  simp [return_,hf,returnTo,State.record]

/-- The state in which the called function starts. -/
structure Calling (D : Set Defect) (c : Call) (b : List Frame) (s : State) : Prop
    extends Inside D s where
  frames : s.frames = .call c::b
  base : OwnBase b
  notMarked : s.tcb.killOnNextRun = false
  noRequest : ∀ lock, s.tcb.waitQueue ≠ some (.waitOnLock lock)

namespace Calling

variable {c : Call} {b : List Frame}

theorem pending (h : Calling D c b s) : pendingCall s.frames = some c := by
  simp [h.frames,pendingCall]

theorem me_pending (h : Calling D c b s) : (view s).me.pending = some c := by
  rw [view_me]; exact h.pending

theorem me_unmarked (h : Calling D c b s) : (view s).me.killOnNextRun = false := by
  rw [view_me]; exact h.notMarked

theorem settled_of (h : Calling D c b s) (hn : ∀ q, ¬ SleepsOn D c q) (hk : ∀ tid, c ≠ .threadKill tid)
    (hd : ∀ lock, c = .lockDestroy lock → s.waitQueues (.waitOnLock lock) = []) :
    (view s).SettledAt D s.currentThreadId := by
  refine ⟨fun c' q hc hs => ?_,fun tid hc => ?_,fun _ lock hc => ?_⟩
  · obtain rfl : c = c' := Option.some.inj (h.me_pending.symm.trans hc)
    exact absurd hs (hn q)
  · exact absurd (Option.some.inj (h.me_pending.symm.trans hc)) (hk tid)
  · exact hd lock (Option.some.inj (h.me_pending.symm.trans hc))

theorem return_outcome (h : Calling D c b s) {v : ℤ} (hp : PlainReturn D (view s) c v) :
    Outcome D (view s) (return_ v s) := by
  rw [return_call v h.frames]
  exact ret_outcome h.toInside h.base h.pending h.notMarked hp

theorem wakeup (h : Calling D c b s) (waker : Waker) (queue : WaitQueue) (all : ℤ)
    (hw : WakesQueue waker queue) : Moves D (view s) (view (threadWakeup waker queue all s).2) ∧
      Calling D c b (threadWakeup waker queue all s).2 := by
  obtain ⟨l,rest,hq,_,_,_,hs⟩ := threadWakeup_eq waker queue all s fun t => h.waits_ne _
  have hm : Move D (view s) _ := .wake waker queue l rest hq hw
  rw [hs]
  exact ⟨.single hm,⟨hm.sound h.toSound,h.others⟩,h.frames,h.base,h.notMarked,h.noRequest⟩

/-- The called function has checked that the caller owns the lock. -/
theorem passed (h : Calling D c b s) {lock : ℕ} (ho : ownsLock lock s = true) :
    Move D (view s) (view (s.record (.passed s.self lock))) ∧
      Calling D c b (s.record (.passed s.self lock)) := by
  have hm : Move D (view s) ((view s).record (.passed (view s).self lock)) :=
    .passed lock h.me_unmarked (ownsLock_iff.mp ho)
  exact ⟨hm,⟨hm.sound h.toSound,h.others⟩,h.frames,h.base,h.notMarked,h.noRequest⟩

end Calling

variable {c : Call} {b : List Frame}

theorem threadYield_call {w : Tid} (h : Calling D (.threadYield w) b s)
    (hl : .lose ∈ D ∨ ((if w = threadAny then s.readyQueue ≠ [] else w ∈ s.readyQueue) →
      s.tcb.killOnNextRun = false ∧ s.tcb.setcontextCalled = false)) :
    Outcome D (view s) (threadYield w s) := by
  refine threadYield_outcome ⟨h.toInside,?_,?_,?_⟩ hl (h.settled_of (fun q => id) (by simp) (by simp))
  · rw [h.frames]; exact .threadYield w h.base
  · intro hk
    exact absurd (h.notMarked.symm.trans hk) (by simp)
  · intro c hc
    obtain rfl : Call.threadYield w = c := Option.some.inj (h.pending.symm.trans hc)
    trivial

/-- A call on a destroyed queue leaves the model. -/
theorem withQueue_outcome {queue : WaitQueue} {f : State → State} (hf : Outcome D (view s) (f s)) :
    Outcome D (view s) (withQueue queue f s) := by
  simp only [withQueue]
  split
  · exact .goes .refl fun hr => absurd hr (by simp)
  · exact hf

theorem threadSleep_call {q : Option ℕ} (h : Calling D (.threadSleep q) b s)
    (hl : .lose ∈ D ∨ (q.isSome → s.readyQueue ≠ [] → s.tcb.setcontextCalled = false)) :
    Outcome D (view s) (doCall (.threadSleep q) s) := by
  cases q with
  | none => exact h.return_outcome trivial
  | some n =>
    refine withQueue_outcome ?_
    refine threadSleep_outcome h.toInside ?_ h.notMarked (by simp) ?_ (hl.imp_right fun hl => hl rfl)
      (.inl (h.settled_of (fun q => id) (by simp) (by simp)))
    · rw [h.frames]; exact .threadSleep (some n) s.interrupts h.base
    · intro c hc
      obtain rfl : Call.threadSleep (some n) = c := Option.some.inj (h.pending.symm.trans hc)
      rfl

theorem threadExit_call (h : Calling D .threadExit b s) :
    Outcome D (view s) (threadExit false s) :=
  threadExit_outcome h.toInside h.notMarked

theorem threadWakeup_call {q : Option ℕ} {all : ℤ} (h : Calling D (.threadWakeup q all) b s) :
    Outcome D (view s) (doCall (.threadWakeup q all) s) := by
  cases q with
  | none => exact h.return_outcome trivial
  | some n =>
    obtain ⟨hm,hc⟩ := h.wakeup .threadWakeup (.created n) all rfl
    simp only [doCall]
    exact withQueue_outcome ((hc.return_outcome trivial).after hm)

/-- The waiting part of `thread_wait` is reached. -/
def waitsFor (tid : Tid) (s : State) : Prop :=
  0 ≤ tid ∧ tid < threadMaxThreads ∧ tid ≠ s.currentThreadId ∧ (s.TCBs tid).tState ≠ .notAssigned

theorem threadWait_call {tid : Tid} (h : Calling D (.threadWait tid) b s)
    (hl : .lose ∈ D ∨ (waitsFor tid s → s.readyQueue ≠ [] → s.tcb.setcontextCalled = false))
    (hw : .earlyWait ∈ D ∨ (waitsFor tid s → s.readyQueue ≠ [] ∧ s.tcb.setcontextCalled = false)) :
    Outcome D (view s) (threadWait tid s) := by
  have hinv : PlainReturn D (view s) (.threadWait tid) threadInvalid := by
    intro h₀ he
    exact absurd (he ▸ h₀) (by decide)
  simp only [threadWait]
  split
  · exact h.return_outcome hinv
  split
  · exact .goes .refl fun hr => absurd hr (by simp)
  split
  · exact h.return_outcome hinv
  rename_i h₁ h₂ h₃
  have hwf : waitsFor tid s := by
    rw [not_or] at h₁
    exact ⟨not_lt.mp h₁.1,not_le.mp h₂,h₁.2,h₃⟩
  let s₁ : State := { s with interrupts := false, frames := .wait tid s.interrupts::s.frames }
  have hv : view s₁ = view s := view_frames (s := { s with interrupts := false }) rfl
  rw [← hv]
  have hp : pendingCall s₁.frames = some (.threadWait tid) := h.pending
  refine threadSleep_outcome (s := s₁) ⟨hv ▸ h.toSound,h.others⟩ ?_ h.notMarked (by simp) ?_ ?_ ?_
  · change Yielder (.sleep false::.wait tid s.interrupts::s.frames)
    rw [h.frames]; exact .threadWait tid s.interrupts h.base
  · intro c hc
    obtain rfl : Call.threadWait tid = c := Option.some.inj (hp.symm.trans hc)
    rw [hv]
    exact ⟨rfl,h₃⟩
  · exact hl.imp_right fun hl => hl hwf
  · rcases hw with hw | hw
    · rw [hv]
      exact .inl (h.settled_of (fun q hs => hs.1 hw) (by simp) (by simp))
    · exact .inr (hw hwf)

/-- The mark of `thread_kill` is the newest event. -/
theorem settledAt_killed {σ : Sched} {tid : Tid} {k : ℕ} (hp : σ.me.pending = some (.threadKill tid)) :
    ((σ.modify tid fun t => { t with killOnNextRun := true }).record
      (.killed σ.self ⟨tid,k⟩)).SettledAt D σ.current := by
  have hp' : ∀ c, (((σ.modify tid fun t => { t with killOnNextRun := true }).record
      (.killed σ.self ⟨tid,k⟩)).slots σ.current).pending = some c → Call.threadKill tid = c := by
    intro c hc
    have hs : (((σ.modify tid fun t => { t with killOnNextRun := true }).record
        (.killed σ.self ⟨tid,k⟩)).slots σ.current).pending = σ.me.pending := by
      simp only [Sched.modify,Sched.record,Sched.me]
      split <;> rfl
    exact Option.some.inj (hp.symm.trans (hs.symm.trans hc))
  refine ⟨fun c q hc hs => ?_,fun tid' hc => ?_,fun _ lock hc => ?_⟩
  · obtain rfl := hp' c hc
    cases hs
  · obtain rfl : tid = tid' := by simpa using hp' _ hc
    refine ⟨k,?_⟩
    have hi : ((σ.modify tid fun t => { t with killOnNextRun := true }).record
        (.killed σ.self ⟨tid,k⟩)).inst σ.current = σ.self := by
      simp only [Sched.inst,Sched.modify,Sched.record,Sched.self]
      split <;> rfl
    rw [hi]
    exact List.mem_cons_self
  · exact absurd (hp' _ hc) (by simp)

theorem threadKill_call {tid : Tid} (h : Calling D (.threadKill tid) b s) :
    Outcome D (view s) (threadKill tid s) := by
  have hcur := h.current_range
  simp only [threadKill]
  split
  · rename_i h₁
    refine h.return_outcome fun he => ?_
    subst he
    exact absurd h₁ (by decide)
  split
  · rename_i _ h₁
    refine h.return_outcome fun he => ?_
    have : (0 : Tid) ≤ threadInvalid := by rw [he,h₁]; exact hcur.1
    exact absurd this (by decide)
  split
  · exact .goes .refl fun hr => absurd hr (by simp)
  split
  · rename_i h₁ _
    refine h.return_outcome fun he => ?_
    exact absurd (by rw [← he]; decide) h₁
  · rename_i h₁ h₂ h₃ h₄
    rw [not_or] at h₁
    have hne : s.currentThreadId ≠ tid := fun he => h₂ he.symm
    have hv₁ : view (s.modify tid fun t => { t with killOnNextRun := true }) =
        (view s).modify tid fun t => { t with killOnNextRun := true } :=
      view_modify (fun _ => rfl) (fun _ _ => rfl)
    have hv : view { (s.modify tid fun t => { t with killOnNextRun := true }).record
        (.killed s.self (s.inst tid)) with frames := .killed tid::s.frames } =
        ((view s).modify tid fun t => { t with killOnNextRun := true }).record
          (.killed s.self (s.inst tid)) := by
      exact (view_frames (s := (s.modify tid fun t => { t with killOnNextRun := true }).record
        (.killed s.self (s.inst tid))) (k := .killed tid::s.frames) rfl).trans
          (congrArg (Sched.record (.killed s.self (s.inst tid))) hv₁)
    refine .goes (.single ?_) fun _ => ⟨?_,.point ?_ fun hk => ?_,?_⟩
    · rw [hv]
      exact .kill tid h₂ (not_lt.mp h₃) (not_le.mp h₁.1) h₄ h.me_unmarked h.me_pending
    · intro t ht hr
      have ht' : t ≠ s.currentThreadId := ht
      by_cases htt : t = tid
      · simp only [State.record,State.modify,htt,if_true] at hr ⊢
        exact h.others tid (htt ▸ ht') hr
      · simp only [State.record,State.modify,htt,if_false] at hr ⊢
        exact h.others t ht' hr
    · change Point (.killed tid::s.frames)
      rw [h.frames]
      exact .killed tid h.base
    · have hu := h.notMarked
      simp only [State.tcb] at hu
      simp [State.tcb,State.record,State.modify,hne,hu] at hk
    · rw [hv]
      exact settledAt_killed h.me_pending

theorem threadCreate_call {stack : Bool} (h : Calling D (.threadCreate stack) b s)
    (hf : .forget ∈ D ∨ stack = true)
    (hr : .recycle ∈ D ∨ ∀ id rest, s.availableThreadIds = id::rest →
      ∀ lock l, s.locks lock = some l → l.isAcquired = true → l.acquiredBy ≠ id) :
    Outcome D (view s) (threadCreate stack s) := by
  cases ha : s.availableThreadIds with
  | nil =>
    let s₁ := s.modify s.currentThreadId fun t => { t with mycontext := ⟨s.frames,false⟩ }
    have he : threadCreate stack s = return_ threadNomore s₁ := by
      simp [threadCreate,removeFromHead,State.modify,ha,s₁]
    have hv : view s₁ = view s := view_mycontext _
    have hc : Calling D (.threadCreate stack) b s₁ := by
      refine ⟨⟨by rw [hv]; exact h.toSound,?_⟩,h.frames,h.base,?_,?_⟩
      · intro t ht hr
        have ht' : t ≠ s.currentThreadId := ht
        simp only [s₁,State.modify,ht',if_false] at hr ⊢
        exact h.others t ht' hr
      · simpa [s₁,State.tcb,State.modify] using h.notMarked
      · simpa [s₁,State.tcb,State.modify] using h.noRequest
    rw [he,← hv]
    exact hc.return_outcome trivial
  | cons id rest =>
    have hm : id ∈ s.availableThreadIds := by simp [ha]
    have hc : id ≠ s.currentThreadId := h.ne_current_of_available hm
    have h₁ : id ≠ -1 := by
      rintro rfl
      exact absurd (h.range .available _ hm).1 (by decide)
    cases stack with
    | true =>
      rw [threadCreate_eq ha h₁ hc]
      have hmv : Move D (view s) (view (created id rest s)) := by
        rw [view_created hc]
        exact .create id rest true ha h.me_pending (hr.imp_right fun hr => hr id rest ha)
      have hcur : (created id rest s).tcb = { s.tcb with mycontext := ⟨s.frames,false⟩ } := by
        simp [State.tcb,created,hc.symm]
      refine (Calling.return_outcome (c := .threadCreate true) (b := b) ⟨⟨hmv.sound h.toSound,?_⟩,
        h.frames,h.base,?_,?_⟩ trivial).after (.single hmv)
      · intro t ht hr
        have ht' : t ≠ s.currentThreadId := ht
        by_cases hti : t = id
        · simp only [created,hti,if_true]
          exact ⟨rfl,.inl rfl⟩
        · simp only [created,hti,ht',if_false] at hr ⊢
          exact h.others t ht' hr
      · rw [hcur]; exact h.notMarked
      · rw [hcur]; exact h.noRequest
    | false =>
      have hf' : .forget ∈ D := hf.resolve_right (by simp)
      let s₁ : State := ({ s.modify s.currentThreadId (fun t => { t with mycontext := ⟨s.frames,false⟩ })
        with availableThreadIds := rest }).modify id fun t => { t with stackToFree := false }
      have he : threadCreate false s = return_ threadNomemory s₁ := by
        simp [threadCreate,removeFromHead,State.modify,ha,h₁,s₁]
      have hv : view s₁ = { view s with available := rest } := by
        refine Sched.ext (funext fun t => ?_) rfl rfl rfl rfl rfl rfl
        by_cases hti : t = id
        · subst hti
          simp [view,s₁,State.modify,stack,slot,hc]
        · by_cases htc : t = s.currentThreadId
          · subst htc
            simp [view,s₁,State.modify,stack,slot,hti]
          · simp [view,s₁,State.modify,stack,slot,hti,htc]
      have hmv : Move D (view s) (view s₁) := by
        rw [hv]
        exact .forget id rest hf' ha
      rw [he]
      refine (Calling.return_outcome (c := .threadCreate false) (b := b) ⟨⟨hmv.sound h.toSound,?_⟩,
        h.frames,h.base,?_,?_⟩ trivial).after (.single hmv)
      · intro t ht hr
        have ht' : t ≠ s.currentThreadId := ht
        by_cases hti : t = id
        · have hn : (s.TCBs id).tState = .notAssigned := h.free id hm
          simp [s₁,State.modify,hti,hc,hn] at hr
        · simp only [s₁,State.modify,hti,ht',if_false] at hr ⊢
          exact h.others t ht' hr
      · have := h.notMarked
        simp only [State.tcb] at this
        simp [State.tcb,s₁,State.modify,hc.symm,this]
      · have := h.noRequest
        simp only [State.tcb] at this
        simpa [State.tcb,s₁,State.modify,hc.symm] using this

theorem lockAcquire_call {lock : ℕ} (h : Calling D (.lockAcquire lock) b s)
    (hl : .lose ∈ D ∨ ((view s).Acquired lock → s.readyQueue ≠ [] → s.tcb.setcontextCalled = false))
    (hd : (view s).Acquired lock → (view s).Kept D lock) :
    Outcome D (view s) (lockAcquire lock s) := by
  refine acquireLoop_outcome (s := { s with interrupts := false }) (c := .lockAcquire lock) ⟨h.toSound,h.others⟩ ?_ rfl
    h.notMarked hl hd (h.settled_of (fun q => id) (by simp) (by simp))
  change Acquirer lock s.frames (.lockAcquire lock)
  rw [h.frames]
  exact .lockAcquire h.base

/-- A call on a destroyed lock leaves the model. -/
theorem withLock_outcome {lock : ℕ} {f : State → State}
    (hf : (s.locks lock).isSome → Outcome D (view s) (f s)) :
    Outcome D (view s) (withLock lock f s) := by
  simp only [withLock]
  split
  · exact hf ‹_›
  · exact .goes .refl fun hr => absurd hr (by simp)

theorem lockRelease_call {lock : ℕ} (h : Calling D (.lockRelease lock) b s) :
    Outcome D (view s) (lockRelease lock s) := by
  refine withLock_outcome fun _ => ?_
  by_cases ho : ownsLock lock s = true
  · have hm := releaseLock_moves h.toInside ho h.notMarked h.pending rfl h.noRequest
    have hin := releaseLock_inside h.toInside ho h.notMarked h.pending rfl h.noRequest
    have he := releaseLock_eq h.toInside ho
    refine (Calling.return_outcome (c := .lockRelease lock) (b := b) ⟨hin,?_,h.base,?_,?_⟩
      trivial).after hm <;> rw [he]
    exacts [h.frames,h.notMarked,h.noRequest]
  · simp only [releaseLock,ho]
    exact h.return_outcome trivial

theorem cvWakeup_call {waker : Waker} {all : ℤ} {cv lock : ℕ} (h : Calling D c b s)
    (hw : waker = .cvSignal ∨ waker = .cvBroadcast) (hp : ∀ σ, PlainReturn D σ c 0) :
    Outcome D (view s) (cvWakeup waker all cv lock s) := by
  refine withQueue_outcome (withLock_outcome fun _ => ?_)
  split
  · rename_i ho
    obtain ⟨hm₁,hc₁⟩ := h.passed ho
    obtain ⟨hm₂,hc₂⟩ := hc₁.wakeup waker (.waitOnCv cv) all hw
    exact (hc₂.return_outcome (hp _)).after ((Relation.ReflTransGen.single hm₁).trans hm₂)
  · exact h.return_outcome (hp _)

theorem cvWait_call {cv lock : ℕ} (h : Calling D (.cvWait cv lock) b s)
    (ho : ownsLock lock s = true)
    (hl : .lose ∈ D ∨ (s.readyQueue ≠ [] ∨ s.waitQueues (.waitOnLock lock) ≠ [] →
      s.tcb.setcontextCalled = false))
    (hw : .earlyCvWait ∈ D ∨ (s.readyQueue ≠ [] ∨ s.waitQueues (.waitOnLock lock) ≠ []) ∧
      s.tcb.setcontextCalled = false) :
    Outcome D (view s) (cvWait cv lock s) := by
  refine withQueue_outcome (withLock_outcome fun _ => ?_)
  simp only [ho,if_true]
  let s₁ : State := { s.record (.passed s.self lock) with
    interrupts := false, frames := .cvSlept cv lock s.interrupts::s.frames }
  have hv₁ : view s₁ = (view s).record (.passed (view s).self lock) :=
    view_frames (s := { s.record (.passed s.self lock) with interrupts := false }) rfl
  have h₁ : Move D (view s) (view s₁) := by
    rw [hv₁]
    exact .passed lock h.me_unmarked (ownsLock_iff.mp ho)
  have hin₁ : Inside D s₁ := ⟨h₁.sound h.toSound,h.others⟩
  have hm := releaseLock_moves (s := s₁) hin₁ ho h.notMarked h.pending rfl h.noRequest
  have hin := releaseLock_inside (s := s₁) hin₁ ho h.notMarked h.pending rfl h.noRequest
  have he := releaseLock_eq (s := s₁) hin₁ ho
  refine Outcome.after ((Relation.ReflTransGen.single h₁).trans hm) ?_
  change Outcome D (view (releaseLock lock s₁)) (threadSleep (some (.waitOnCv cv)) (releaseLock lock s₁))
  have hready : (releaseLock lock s₁).readyQueue ≠ [] ↔
      s.readyQueue ≠ [] ∨ s.waitQueues (.waitOnLock lock) ≠ [] := by
    rw [he]
    simp only [s₁,State.record,ne_eq,List.append_eq_nil_iff]
    tauto
  have hflag : (releaseLock lock s₁).tcb.setcontextCalled = s.tcb.setcontextCalled := by
    rw [he]; rfl
  have hfr : (releaseLock lock s₁).frames = .cvSlept cv lock s.interrupts::s.frames := by
    rw [he]
  have hint : (releaseLock lock s₁).interrupts = false := by rw [he]
  have hpend : pendingCall (releaseLock lock s₁).frames = some (.cvWait cv lock) := by
    rw [hfr]; exact h.pending
  refine threadSleep_outcome hin ?_ ?_ (by simp) ?_ ?_ ?_
  · rw [hfr,hint,h.frames]
    exact .cvSlept cv lock s.interrupts h.base
  · rw [he]; exact h.notMarked
  · intro c hc
    obtain rfl : Call.cvWait cv lock = c := Option.some.inj (hpend.symm.trans hc)
    exact .inl rfl
  · rw [hready,hflag]
    exact hl
  · rw [hready,hflag]
    have hpend' : (view (releaseLock lock s₁)).me.pending = some (.cvWait cv lock) := by
      rw [view_me]; exact hpend
    refine hw.imp_left fun hw => ⟨fun c q hc hs => ?_,fun tid hc => ?_,fun _ l hc => ?_⟩
    · obtain rfl : Call.cvWait cv lock = c := Option.some.inj (hpend'.symm.trans hc)
      exact absurd hw hs.1
    · exact absurd (hpend'.symm.trans hc) (by simp)
    · exact absurd (hpend'.symm.trans hc) (by simp)

/-- A call reaches the loop of `wait_queue_destroy`. -/
theorem waitQueueDestroy_call {queue : WaitQueue} (h : Calling D c b s) (hd : Destroys c queue)
    (hw : ∀ lock, c = .lockDestroy lock → s.waitQueues (.waitOnLock lock) = []) :
    Outcome D (view s) (waitQueueDestroy queue s) := by
  refine withQueue_outcome ?_
  have hv : view { s with frames := .destroy queue::s.frames } = view s := view_frames rfl
  refine .goes (by rw [hv]) fun _ => ⟨h.others,.point ?_ fun hk => ?_,?_⟩
  · change Point (.destroy queue::s.frames)
    rw [h.frames]
    exact .destroy hd h.base
  · exact absurd (h.notMarked.symm.trans hk) (by simp)
  · rw [hv]
    exact h.settled_of (fun q hs => by cases c <;> simp_all [SleepsOn,Destroys])
      (fun tid he => by subst he; cases hd) hw

theorem lockDestroy_call {lock : ℕ} (h : Calling D (.lockDestroy lock) b s) :
    Outcome D (view s) (lockDestroy lock s) := by
  simp only [lockDestroy]
  split
  · exact .goes .refl fun hr => absurd hr (by simp)
  split
  · exact .goes .refl fun hr => absurd hr (by simp)
  · rename_i l hl hf
    refine waitQueueDestroy_call h rfl fun lock' he => ?_
    obtain rfl : lock = lock' := by simpa using he
    by_contra hw
    obtain ⟨l',hl',ha⟩ := h.blocked lock hw
    obtain rfl : l = l' := Option.some.inj (hl.symm.trans hl')
    exact hf ha

end SchedulerRefinement
end OsLabs

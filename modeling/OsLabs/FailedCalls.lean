import OsLabs.SavedMasks

/-!
# Failed calls

A call of the scheduler that returns a negative code does so in the step in which it was made, and
has changed nothing that the other threads can see. The exception is `thread_create` without
memory for a stack: it has already taken the identifier.
-/

namespace OsLabs
namespace FailedCalls

open ThreadModel Scheduler SchedulerView SchedulerRefinement SchedulerRun SavedMasks Transition

/-- The calls that return error codes. -/
def Fallible : Call → Prop
  | .threadCreate _ => True
  | .threadYield _ => True
  | .threadKill _ => True
  | .threadSleep _ => True
  | .threadWait _ => True
  | _ => False

/-- The queues, the free identifiers, the running thread and the slots are the same. -/
structure Unchanged (s s' : State) : Prop where
  readyQueue : s'.readyQueue = s.readyQueue
  waitQueues : s'.waitQueues = s.waitQueues
  availableThreadIds : s'.availableThreadIds = s.availableThreadIds
  currentThreadId : s'.currentThreadId = s.currentThreadId
  tState : ∀ t, (s'.TCBs t).tState = (s.TCBs t).tState
  killOnNextRun : ∀ t, (s'.TCBs t).killOnNextRun = (s.TCBs t).killOnNextRun
  waitQueue : ∀ t, (s'.TCBs t).waitQueue = (s.TCBs t).waitQueue

/-- The step from `s` to `s'` ends with the return of `c` with the value `v`. -/
def ReturnsIn (s s' : State) (c : Call) (v : ℤ) : Prop :=
  ∃ i m older, s'.history = .ret i c v m::older ∧ s.history <:+ older

/-- No event after `h` is the failure of a call. -/
def NoFailure (h : List Event) (s : State) : Prop :=
  ∀ i c v m older, s.history = .ret i c v m::older → h <:+ older → Fallible c → 0 ≤ v

/-- The call to which these frames return a value that they have not got yet. -/
def receiver : List Frame → Option Call
  | .call c::_ => some c
  | .sleep _::k => receiver k
  | .cvReacquired _ _ _::k => receiver k
  | _ => none

/-- A negative value would be returned as an error code. -/
def Expects (k : List Frame) : Prop := ∃ c, receiver k = some c ∧ Fallible c

section Functions

variable {h : List Event} {s : State}

theorem noFailure_of_internal {n r : List Event} (hs : s.history = n ++ r) (hn : n ≠ [])
    (hi : ∀ e ∈ n, internal e = true) : NoFailure h s := by
  intro i c v m older he _ _
  obtain ⟨e,n,rfl⟩ := List.exists_cons_of_ne_nil hn
  have hie := hi e (by simp)
  obtain ⟨rfl,-⟩ : e = .ret i c v m ∧ _ := by simpa [he] using hs.symm
  simp [internal] at hie

theorem noFailure_returnTo : ∀ (k : List Frame) (v : ℤ) (s : State), NoFailure h s → Proper k →
    0 ≤ v ∨ ¬ Expects k → NoFailure h (returnTo v k s)
  | [], _, _, hn, _, _ => hn
  | f::k, v, s, hn, hp, hv => by
    cases f with
    | sleep e => exact noFailure_returnTo k v { s with interrupts := e } hn hp hv
    | wait tid e =>
      exact noFailure_returnTo k tid { s with interrupts := e } hn hp.2 (.inl hp.1)
    | cvReacquired cv l e => exact noFailure_returnTo k v { s with interrupts := e } hn hp hv
    | call c =>
      rintro i c' v' m older he _ hc
      obtain ⟨⟨-,rfl,rfl,-⟩,-⟩ : (_ ∧ c = c' ∧ v = v' ∧ _) ∧ _ := by
        simpa [returnTo,State.record] using he
      exact hv.resolve_right fun hx => hx ⟨c,rfl,hc⟩
    | _ => exact hn

theorem noFailure_return (hc : Controlled s) (hn : NoFailure h s) {v : ℤ}
    (hv : 0 ≤ v ∨ ¬ Expects s.frames) : NoFailure h (return_ v s) :=
  noFailure_returnTo s.frames v s hn hc.live.proper hv

theorem noFailure_threadExit {m : Bool} (hc : Controlled { s with interrupts := m }) (marked : Bool) :
    NoFailure h (threadExit marked s) := by
  refine noFailure_of_internal (n := ((s.waitQueues (.tWait s.currentThreadId)).map fun t =>
      Event.woken (s.inst t) (.tWait s.currentThreadId) .threadExit).reverse ++
    [.exited s.self marked]) (r := s.history) ?_ (by simp) ?_
  · rw [threadExit_eq (s := s) (hc.waits_ne _)]
    cases hr : (exited marked s).readyQueue with
    | nil =>
      simp only [removeNextReadyThread,hr,if_true]
      simp [freeTCBStacks,exited]
    | cons x rest =>
      simp only [removeNextReadyThread,hr]
      split <;> simp [freeTCBStacks,switchTo,setcontext,State.modify,exited]
  · intro e he
    rcases List.mem_append.mp he with he | he
    · obtain ⟨t,-,rfl⟩ := List.mem_map.mp (List.mem_reverse.mp he)
      rfl
    · rw [List.mem_singleton.mp he]; rfl

theorem noFailure_yieldingBlock (hn : NoFailure h s) (x o : Tid) : NoFailure h (yieldingBlock x o s) := by
  simp only [yieldingBlock]
  split
  · exact noFailure_of_internal (n := [_]) (r := s.history) rfl (by simp) (by simp [internal])
  · exact hn

/-- `thread_yield` that has taken a ready thread returns an identifier. -/
theorem noFailure_afterGetcontext {x o tk : Tid} {enabled : Bool} (hn : NoFailure h s)
    (hc : Controlled { s with interrupts := enabled }) (htk : 0 ≤ tk) :
    NoFailure h (afterGetcontext x o tk enabled s) := by
  have hf := hc.freeTCBStacks
  simp only [afterGetcontext]
  split
  · exact noFailure_threadExit hf true
  split
  · exact noFailure_yieldingBlock (s := freeTCBStacks s) hn x o
  · have hm := Controlled.modify hf s.currentThreadId (f := fun t => { t with setcontextCalled := false })
      (fun _ => rfl) (fun _ _ => rfl)
    exact noFailure_return hm hn (.inl htk)

theorem noFailure_yieldTo {x : Tid} {enabled : Bool} (hn : NoFailure h s)
    (hc : Controlled { s with interrupts := enabled }) (hx : 0 ≤ x) :
    NoFailure h (yieldTo x enabled s) := by
  have hm := Controlled.modify hc s.currentThreadId (f := fun t => { t with
    mycontext := ⟨.yielded x s.currentThreadId x enabled::s.frames,s.interrupts⟩ })
    (fun _ => rfl) (fun hn => absurd rfl hn)
  exact noFailure_afterGetcontext hn hm hx

theorem noFailure_threadYield (hc : Controlled s) (hn : NoFailure h s) (hx : ¬ Expects s.frames)
    (w : Tid) : NoFailure h (threadYield w s) := by
  rcases threadYield_cases w s with ⟨v,hv⟩ | ⟨x,hmem,-,hv⟩
  · rw [hv]
    exact noFailure_return hc hn (.inr hx)
  · rw [hv]
    exact noFailure_yieldTo hn { hc with ready := fun t ht => hc.ready t (List.mem_of_mem_erase ht) }
      (hc.ready x hmem)

theorem noFailure_threadSleep (hc : Controlled s) (hn : NoFailure h s) (hx : ¬ Expects s.frames)
    (q : Option WaitQueue) : NoFailure h (threadSleep q s) := by
  cases q with
  | none => exact noFailure_return hc hn (.inr hx)
  | some queue =>
    simp only [threadSleep]
    split
    · exact noFailure_return hc hn (.inr hx)
    · have hm := hc.modify s.currentThreadId (f := fun t => { t with waitQueue := some queue })
        (fun _ => rfl) (fun _ _ => rfl)
      exact noFailure_threadYield (hm.goto (m := false) (k := .sleep s.interrupts::s.frames)
        (hm.live.congr rfl hm.live.proper)) hn hx _

theorem not_expects_acquire (lock : ℕ) (e : Bool) (k : List Frame) : ¬ Expects (.acquire lock e::k) := by
  rintro ⟨c,hc,-⟩
  simp [receiver] at hc

theorem noFailure_acquireLoop {lock : ℕ} {enabled : Bool} (hn : NoFailure h s)
    (hc : Controlled { s with interrupts := enabled }) : NoFailure h (acquireLoop lock enabled s) := by
  simp only [acquireLoop]
  split
  · exact hn
  split
  · refine noFailure_return (Controlled.record (hc.setLock lock _) rfl) ?_ (.inl le_rfl)
    exact noFailure_of_internal (n := [_]) (r := s.history) rfl (by simp) (by simp [internal])
  · exact noFailure_threadSleep (hc.goto (m := s.interrupts) (k := .acquire lock enabled::s.frames)
      (hc.live.congr rfl hc.live.proper)) hn (not_expects_acquire lock enabled s.frames) _

theorem noFailure_lockAcquire (hc : Controlled s) (hn : NoFailure h s) (lock : ℕ) :
    NoFailure h (lockAcquire lock s) :=
  noFailure_acquireLoop (s := { s with interrupts := false }) hn hc

theorem noFailure_record {e : Event} (he : internal e = true) :
    NoFailure h (s.record e) :=
  noFailure_of_internal (n := [e]) (r := s.history) rfl (by simp) (by simpa using he)

theorem noFailure_threadWakeup (hc : Controlled s) (hn : NoFailure h s) (waker : Waker)
    (queue : WaitQueue) (all : ℤ) : NoFailure h (threadWakeup waker queue all s).2 := by
  obtain ⟨l,rest,hq,-,-,-,hs⟩ := threadWakeup_eq waker queue all s (hc.waits_ne queue)
  rw [hs]
  cases l with
  | nil => exact hn
  | cons t l =>
    refine noFailure_of_internal
      (n := ((t::l).map fun t => Event.woken (s.inst t) queue waker).reverse) (r := s.history) rfl
      (by simp) fun e he => ?_
    obtain ⟨u,-,rfl⟩ := List.mem_map.mp (List.mem_reverse.mp he)
    rfl

theorem releaseLock_frames (hc : Controlled s) (lock : ℕ) :
    (releaseLock lock s).frames = s.frames := by
  simp only [releaseLock]
  split
  · have hp := hc.record (e := .passed s.self lock) rfl
    obtain ⟨l,rest,-,-,-,-,hs⟩ := threadWakeup_eq .lockRelease (.waitOnLock lock) 1
      (s.record (.passed s.self lock)) (hp.waits_ne _)
    rw [hs]
    rfl
  · rfl

theorem noFailure_releaseLock (hn : NoFailure h s) (lock : ℕ) :
    NoFailure h (releaseLock lock s) := by
  simp only [releaseLock]
  split
  · exact noFailure_record rfl
  · exact hn

theorem noFailure_withLock (hn : NoFailure h s) {lock : ℕ} {f : State → State}
    (hf : NoFailure h (f s)) : NoFailure h (withLock lock f s) := by
  simp only [withLock]
  split
  · exact hf
  · exact hn

theorem noFailure_withQueue (hn : NoFailure h s) {queue : WaitQueue} {f : State → State}
    (hf : NoFailure h (f s)) : NoFailure h (withQueue queue f s) := by
  simp only [withQueue]
  split
  · exact hn
  · exact hf

theorem noFailure_cvWait (hc : Controlled s) (hn : NoFailure h s) (cv lock : ℕ) :
    NoFailure h (cvWait cv lock s) := by
  refine noFailure_withQueue hn (noFailure_withLock hn ?_)
  split
  · have hp := hc.record (e := .passed s.self lock) rfl
    have hg := hp.goto (m := false) (k := .cvSlept cv lock s.interrupts::s.frames)
      (hp.live.congr rfl hp.live.proper)
    have hn' : NoFailure h { s.record (.passed s.self lock) with
        interrupts := false, frames := .cvSlept cv lock s.interrupts::s.frames } :=
      noFailure_record (s := s) (e := .passed s.self lock) rfl
    refine noFailure_threadSleep (hg.releaseLock lock) (noFailure_releaseLock hn' lock) ?_ _
    rw [releaseLock_frames hg]
    rintro ⟨c,hc,-⟩
    simp [receiver] at hc
  · exact noFailure_return hc hn (.inl le_rfl)

theorem noFailure_cvWakeup (hc : Controlled s) (hn : NoFailure h s) (waker : Waker) (all : ℤ)
    (cv lock : ℕ) : NoFailure h (cvWakeup waker all cv lock s) := by
  refine noFailure_withQueue hn (noFailure_withLock hn ?_)
  split
  · exact noFailure_return ((hc.record rfl).threadWakeup _ _ _)
      (noFailure_threadWakeup (hc.record rfl) (noFailure_record rfl) _ _ _) (.inl le_rfl)
  · exact noFailure_return hc hn (.inl le_rfl)

theorem noFailure_waitQueueDestroy (hn : NoFailure h s) (queue : WaitQueue) :
    NoFailure h (waitQueueDestroy queue s) :=
  noFailure_withQueue hn hn

theorem noFailure_destroyLoop (hc : Controlled s) (hn : NoFailure h s) (queue : WaitQueue) :
    NoFailure h (destroyLoop queue s) := by
  refine noFailure_withQueue hn ?_
  cases hq : s.waitQueues queue with
  | nil =>
    simp only [popHeadThreadWait,hq,if_true]
    exact hn
  | cons t rest =>
    have ht : t ≠ -1 := hc.waits_ne _ t (by rw [hq]; exact List.mem_cons_self)
    simp only [popHeadThreadWait,hq,ht,if_false]
    exact noFailure_of_internal (n := [_]) (r := s.history) rfl (by simp) (by simp [internal])

theorem noFailure_freeWaitQueue (hn : NoFailure h s) (queue : WaitQueue) :
    NoFailure h (freeWaitQueue queue s) := by
  cases hq : s.waitQueues queue with
  | nil =>
    have hh : (freeWaitQueue queue s).history = s.history := by simp [freeWaitQueue,hq]
    exact fun i c v m older he => hn i c v m older (hh ▸ he)
  | cons t rest =>
    refine noFailure_of_internal (r := s.history) rfl (by simp [hq]) fun e he => ?_
    obtain ⟨t,-,rfl⟩ := List.mem_map.mp (List.mem_reverse.mp he)
    rfl

theorem noFailure_destroyEnd (hc : Controlled s) (hn : NoFailure h s) (queue : WaitQueue) :
    NoFailure h (destroyEnd queue s) := by
  have hf := hc.freeWaitQueue queue
  have hn' := noFailure_freeWaitQueue hn queue
  refine noFailure_withQueue hn ?_
  cases queue with
  | waitOnLock lock => exact noFailure_return (hf.setLock lock none) hn' (.inl le_rfl)
  | _ => exact noFailure_return hf hn' (.inl le_rfl)

/-! ### Calls that fail at once -/

theorem Unchanged.refl (s : State) : Unchanged s s :=
  ⟨rfl,rfl,rfl,rfl,fun _ => rfl,fun _ => rfl,fun _ => rfl⟩

theorem Unchanged.returnTo {s₀ : State} : ∀ (k : List Frame) (v : ℤ) (s : State), Unchanged s₀ s →
    Unchanged s₀ (returnTo v k s)
  | [], _, _, hu => { hu with }
  | f::k, v, s, hu => by
    cases f with
    | sleep e => exact Unchanged.returnTo k v _ { hu with }
    | wait tid e => exact Unchanged.returnTo k tid _ { hu with }
    | cvReacquired cv l e => exact Unchanged.returnTo k v _ { hu with }
    | _ => exact { hu with }

theorem Unchanged.return_ {s₀ : State} (hu : Unchanged s₀ s) (v : ℤ) : Unchanged s₀ (return_ v s) :=
  hu.returnTo s.frames v s

/-- A call made in `s₀` that has failed has returned at once and changed nothing. -/
def Harmless (h : List Event) (s₀ s : State) : Prop :=
  NoFailure h s ∨ ∃ v s₁, Unchanged s₀ s₁ ∧ s₁.frames = s₀.frames ∧ s = return_ v s₁

theorem Harmless.refused (v : ℤ) : Harmless h s (return_ v s) := .inr ⟨v,s,.refl s,rfl,rfl⟩

theorem harmless_threadYield (hc : Controlled s) (hn : NoFailure h s) (w : Tid) :
    Harmless h s (threadYield w s) := by
  rcases threadYield_cases w s with ⟨v,hv⟩ | ⟨x,hmem,-,hv⟩
  · rw [hv]
    exact .refused v
  · rw [hv]
    exact .inl (noFailure_yieldTo hn
      { hc with ready := fun t ht => hc.ready t (List.mem_of_mem_erase ht) } (hc.ready x hmem))

theorem noFailure_threadYield_ready {x : Tid} (hc : Controlled s) (hn : NoFailure h s)
    (hx : x ∈ s.readyQueue) (h₁ : x < threadMaxThreads) (hst : (s.TCBs x).tState = .ready)
    (hcur : x ≠ s.currentThreadId) : NoFailure h (threadYield x s) := by
  rw [threadYield_ready hx (hc.ready x hx) h₁ hst hcur]
  exact noFailure_yieldTo hn { hc with ready := fun t ht => hc.ready t (List.mem_of_mem_erase ht) }
    (hc.ready x hx)

/-- The threads of the ready queue can be switched to. -/
def Startable (s : State) : Prop :=
  ∀ x ∈ s.readyQueue, x < threadMaxThreads ∧ (s.TCBs x).tState = .ready ∧ x ≠ s.currentThreadId

/-- A ready thread can always be switched to, so `thread_yield` does not fail in `thread_sleep`. -/
theorem harmless_threadSleep (hc : Controlled s) (hn : NoFailure h s) (hready : Startable s)
    (q : Option WaitQueue) : Harmless h s (threadSleep q s) := by
  cases q with
  | none => exact .refused _
  | some queue =>
    simp only [threadSleep]
    split
    · exact .refused _
    · rename_i x rest hr
      have hx : x ∈ s.readyQueue := by rw [hr]; exact List.mem_cons_self
      obtain ⟨h₁,hst,hcur⟩ := hready x hx
      have hm := hc.modify s.currentThreadId (f := fun t => { t with waitQueue := some queue })
        (fun _ => rfl) (fun _ _ => rfl)
      have hg := hm.goto (m := false) (k := .sleep s.interrupts::s.frames)
        (hm.live.congr rfl hm.live.proper)
      exact .inl (noFailure_threadYield_ready hg hn hx h₁ (by simp [State.modify,hcur,hst]) hcur)

theorem harmless_threadWait (hc : Controlled s) (hn : NoFailure h s) (tid : Tid) :
    Harmless h s (threadWait tid s) := by
  simp only [threadWait]
  split
  · exact .refused _
  split
  · exact .inl hn
  split
  · exact .refused _
  · rename_i h₁ _ _
    rw [not_or] at h₁
    refine .inl (noFailure_threadSleep (hc.goto (m := false) (k := .wait tid s.interrupts::s.frames)
      (hc.live.congr rfl ⟨not_lt.mp h₁.1,hc.live.proper⟩)) hn ?_ _)
    rintro ⟨c,hc,-⟩
    simp [receiver] at hc

theorem harmless_threadKill (hn : NoFailure h s) (tid : Tid) :
    Harmless h s (threadKill tid s) := by
  simp only [threadKill]
  split
  · exact .refused _
  split
  · exact .refused _
  split
  · exact .inl hn
  split
  · exact .refused _
  · exact .inl (noFailure_of_internal (n := [_]) (r := s.history) rfl (by simp) (by simp [internal]))

end Functions

section Create

variable {h : List Event} {s : State}

theorem unchanged_mycontext (t : Tid) (c : Context) :
    Unchanged s (s.modify t fun th => { th with mycontext := c }) := by
  refine { Unchanged.refl s with tState := fun u => ?_, killOnNextRun := fun u => ?_, waitQueue := fun u => ?_ }
  all_goals by_cases hu : u = t <;> simp [State.modify,hu]

/-- All threads exist. -/
theorem harmless_threadCreate_nil (ha : s.availableThreadIds = []) (stack : Bool) :
    Harmless h s (threadCreate stack s) := by
  refine .inr ⟨threadNomore,_,unchanged_mycontext s.currentThreadId ⟨s.frames,false⟩,rfl,?_⟩
  simp [threadCreate,removeFromHead,State.modify,ha]

/-- The identifier is gone when the stack cannot be allocated. -/
theorem threadCreate_nomemory {id : Tid} {rest : List Tid} (ha : s.availableThreadIds = id::rest)
    (hid : id ≠ -1) : ∃ s₁, threadCreate false s = return_ threadNomemory s₁ ∧
      s₁.availableThreadIds = rest ∧ s₁.frames = s.frames := by
  simp only [threadCreate,removeFromHead,State.modify,ha,hid,if_false,if_true]
  exact ⟨_,rfl,rfl,rfl⟩

theorem noFailure_threadCreate {id : Tid} {rest : List Tid} (hc : Controlled s)
    (ha : s.availableThreadIds = id::rest) (hcur : id ≠ s.currentThreadId) :
    NoFailure h (threadCreate true s) := by
  have hid : 0 ≤ id := hc.available id (by rw [ha]; exact List.mem_cons_self)
  have hne : id ≠ -1 := by rintro rfl; exact absurd hid (by decide)
  rw [threadCreate_eq ha hne hcur]
  refine noFailure_returnTo s.frames id _ ?_ hc.live.proper (.inl hid)
  exact noFailure_of_internal (n := [_]) (r := s.history) rfl (by simp) (by simp [internal])

end Create

/-! ### Steps -/

section Steps

variable {s s' : State}

theorem noFailure_self {h : List Event} (hs : s.history = h) : NoFailure h s := by
  rintro i c v m older he hsuf -
  have hl := hsuf.length_le
  rw [← hs,he] at hl
  simp at hl

/-- The state in which the code of a call starts. -/
theorem noFailure_called {h : List Event} {i : Inst} {c : Call} {m : Bool}
    (hs : s.history = .call i c m::h) : NoFailure h s := by
  rintro i' c' v m' older he - -
  rw [hs] at he
  cases he

theorem not_expects_call {c : Call} {k : List Frame} (hc : ¬ Fallible c) : ¬ Expects (.call c::k) := by
  rintro ⟨c',hc',hf⟩
  obtain rfl : c = c' := by simpa [receiver] using hc'
  exact hc hf

theorem noFailure_doCall {h : List Event} {c : Call} {k : List Frame} (hc : Controlled s)
    (hn : NoFailure h s) (hf : s.frames = .call c::k) (hc' : ¬ Fallible c) :
    NoFailure h (doCall c s) := by
  have hx : ¬ Expects s.frames := by rw [hf]; exact not_expects_call hc'
  cases c with
  | threadId => exact noFailure_return hc hn (.inr hx)
  | threadExit => exact noFailure_threadExit hc false
  | threadWakeup q all =>
    cases q with
    | none => exact noFailure_return hc hn (.inr hx)
    | some n =>
      refine noFailure_withQueue (f := fun s =>
        let r := threadWakeup .threadWakeup (.created n) all s
        return_ r.1 r.2) hn
          (noFailure_return (hc.threadWakeup _ _ _) (noFailure_threadWakeup hc hn _ _ _) (.inl ?_))
      obtain ⟨l,rest,-,-,-,hl,-⟩ := threadWakeup_eq .threadWakeup (.created n) all s (hc.waits_ne _)
      rw [hl]
      exact Int.natCast_nonneg _
  | lockAcquire lock => exact noFailure_lockAcquire hc hn lock
  | lockRelease lock =>
    exact noFailure_withLock hn (noFailure_return (hc.releaseLock lock)
      (noFailure_releaseLock hn lock) (.inl le_rfl))
  | lockDestroy lock =>
    simp only [doCall,lockDestroy]
    split
    · exact hn
    split
    · exact hn
    · exact noFailure_waitQueueDestroy hn _
  | cvDestroy cv => exact noFailure_waitQueueDestroy hn _
  | waitQueueDestroy q =>
    cases q with
    | none => exact hn
    | some n => exact noFailure_waitQueueDestroy hn _
  | cvWait cv lock => exact noFailure_cvWait hc hn cv lock
  | cvSignal cv lock => exact noFailure_cvWakeup hc hn _ _ cv lock
  | cvBroadcast cv lock => exact noFailure_cvWakeup hc hn _ _ cv lock
  | threadCreate => exact absurd trivial hc'
  | threadYield => exact absurd trivial hc'
  | threadKill => exact absurd trivial hc'
  | threadSleep => exact absurd trivial hc'
  | threadWait => exact absurd trivial hc'

/-- A thread that goes on inside the package does not return an error code. -/
theorem noFailure_resume (hc : Controlled s) (hst : resume s = some s') : NoFailure s.history s' := by
  have hl := hc.live
  have hn : NoFailure s.history s := noFailure_self rfl
  have go : ∀ {k : List Frame} {m : Bool}, settle m k = settle s.interrupts s.frames → Proper k →
      Controlled { s with interrupts := m, frames := k } := fun hm hp => hc.goto (hl.congr hm hp)
  have hp := hl.proper
  simp only [resume] at hst
  split at hst
  case h_1 k hf =>
    obtain rfl := Option.some.inj hst
    exact hn
  case h_2 k hf =>
    obtain rfl := Option.some.inj hst
    exact hn
  case h_3 k hf =>
    split at hst
    · obtain rfl := Option.some.inj hst
      exact noFailure_threadExit hc true
    · obtain rfl := Option.some.inj hst
      exact hn
  case h_4 k hf =>
    obtain rfl := Option.some.inj hst
    exact noFailure_threadExit hc false
  case h_5 n o tk e k hf =>
    obtain rfl := Option.some.inj hst
    rw [hf] at hp
    exact noFailure_afterGetcontext (s := { s with frames := k }) hn
      (go (m := e) (k := k) (by rw [hf]; rfl) hp.2) hp.1
  case h_6 lock e k hf =>
    obtain rfl := Option.some.inj hst
    rw [hf] at hp
    exact noFailure_acquireLoop (s := { s with frames := k }) hn (go (m := e) (by rw [hf]; rfl) hp)
  case h_7 cv lock e k hf =>
    obtain rfl := Option.some.inj hst
    rw [hf] at hp
    exact noFailure_lockAcquire (go (m := s.interrupts) (k := .cvReacquired cv lock e::k)
      (by rw [hf]; rfl) hp) hn lock
  case h_8 tid k hf =>
    obtain rfl := Option.some.inj hst
    rw [hf] at hp
    exact noFailure_return (go (m := s.interrupts) (k := k) (by rw [hf]; rfl) hp.2) hn (.inl hp.1)
  case h_9 queue k hf =>
    obtain rfl := Option.some.inj hst
    rw [hf] at hp
    exact noFailure_destroyLoop (go (m := s.interrupts) (k := k) (by rw [hf]; rfl) hp) hn queue
  case h_10 queue k hf =>
    obtain rfl := Option.some.inj hst
    rw [hf] at hp
    exact noFailure_destroyEnd (go (m := s.interrupts) (k := k) (by rw [hf]; rfl) hp) hn queue
  case h_11 => cases hst

/-- Only a step that makes a call can return an error code. -/
theorem noFailure_step {a : Action} (hc : Controlled s) (hst : step s a = some s')
    (ha : ∀ c, a = .call c → ¬ Fallible c) : NoFailure s.history s' := by
  have hn : NoFailure s.history s := noFailure_self rfl
  simp only [step] at hst
  split at hst
  · cases hst
  cases a with
  | run => exact noFailure_resume hc hst
  | timer =>
    simp only at hst
    split at hst
    · rename_i hi
      obtain rfl := Option.some.inj hst
      refine noFailure_threadYield (hc.goto (m := false) (k := .handler::s.frames)
        (hc.live.congr (by rw [hi]; rfl) hc.live.proper)) hn ?_ _
      rintro ⟨c,hr,-⟩
      simp [receiver] at hr
    · cases hst
  | call c =>
    simp only at hst
    split at hst
    · obtain rfl := Option.some.inj hst
      exact noFailure_doCall (hc.call c) (noFailure_called rfl) rfl (ha c rfl)
    · cases hst
  | compute =>
    simp only at hst
    split at hst
    · obtain rfl := Option.some.inj hst
      exact noFailure_record rfl
    · cases hst
  | interruptsSet e =>
    simp only at hst
    split at hst
    · obtain rfl := Option.some.inj hst
      exact noFailure_record (s := s) rfl
    · cases hst
  | finish =>
    simp only at hst
    split at hst
    · obtain rfl := Option.some.inj hst
      exact noFailure_record (s := s) rfl
    · cases hst

theorem returnsIn_call {s₁ : State} {c c' : Call} {k : List Frame} {v v' : ℤ}
    (hf : s₁.frames = .call c'::k) (hr : ReturnsIn s (return_ v' s₁) c v) : c' = c ∧ v' = v := by
  obtain ⟨i,m,older,he,-⟩ := hr
  rw [return_call v' hf] at he
  obtain ⟨⟨-,hc,hv,-⟩,-⟩ : (_ ∧ c' = c ∧ v' = v ∧ _) ∧ _ := by simpa [State.record] using he
  exact ⟨hc,hv⟩

theorem not_noFailure {c : Call} {v : ℤ} (hr : ReturnsIn s s' c v) (hc : Fallible c) (hv : v < 0) :
    ¬ NoFailure s.history s' := by
  obtain ⟨i,m,older,he,hsuf⟩ := hr
  exact fun hn => absurd (hn i c v m older he hsuf hc) (not_le.mpr hv)

/-- A call that may fail, in the state `s₁` in which its code starts. -/
theorem harmless_doCall {s₁ : State} {h : List Event} {c : Call} (hc : Controlled s₁)
    (hn : NoFailure h s₁) (hready : Startable s₁)
    (hav : s₁.currentThreadId ∉ s₁.availableThreadIds) (hc' : Fallible c)
    (hmem : ¬ (c = .threadCreate false ∧ s₁.availableThreadIds ≠ [])) :
    Harmless h s₁ (doCall c s₁) := by
  cases c with
  | threadCreate stack =>
    cases ha : s₁.availableThreadIds with
    | nil => exact harmless_threadCreate_nil ha stack
    | cons id rest =>
      cases stack with
      | false => exact absurd ⟨rfl,by simp [ha]⟩ hmem
      | true =>
        refine .inl (noFailure_threadCreate hc ha ?_)
        rintro rfl
        exact hav (by rw [ha]; exact List.mem_cons_self)
  | threadYield w => exact harmless_threadYield hc hn w
  | threadKill tid => exact harmless_threadKill hn tid
  | threadSleep q =>
    cases q with
    | none => exact harmless_threadSleep hc hn hready none
    | some n =>
      simp only [doCall,withQueue]
      split
      · exact .inl hn
      · exact harmless_threadSleep hc hn hready _
  | threadWait tid => exact harmless_threadWait hc hn tid
  | _ => cases hc'

/-- A call that returns an error code does so in the step that makes it: nothing has changed before it
returns, but for the identifier that a `thread_create` without memory has taken. -/
theorem returns_at_once {a : Action} {c : Call} {v : ℤ} (h : Reachable anyStep s)
    (hst : step s a = some s') (hc : Fallible c) (hr : ReturnsIn s s' c v) (hv : v < 0) :
    a = .call c ∧ ∃ v' s₁, s' = return_ v' s₁ ∧
      (c = .threadCreate false ∧ s.availableThreadIds ≠ [] →
        s₁.availableThreadIds ≠ s.availableThreadIds) ∧
      (¬ (c = .threadCreate false ∧ s.availableThreadIds ≠ []) → Unchanged s s₁) := by
  have hrun := running_of_step hst
  obtain ⟨hs,-⟩ := sound_control_of_reachable h hrun
  have hctl := (proceeds_of_reachable h).controlled hrun
  have hfail := not_noFailure hr hc hv
  obtain ⟨c',rfl,hc'⟩ : ∃ c', a = .call c' ∧ Fallible c' := by
    by_contra hno
    exact hfail (noFailure_step hctl hst fun c' ha hc' => hno ⟨c',ha,hc'⟩)
  simp only [step,hrun,ne_eq,not_true,if_false] at hst
  split at hst
  case h_2 => cases hst
  case h_1 k hf =>
  obtain rfl := Option.some.inj hst
  by_cases hmem : c' = .threadCreate false ∧ s.availableThreadIds ≠ []
  · obtain ⟨rfl,hav⟩ := hmem
    obtain ⟨id,rest,ha⟩ := List.exists_cons_of_ne_nil hav
    have hid : id ≠ -1 := by
      rintro rfl
      exact absurd (hctl.available _ (by rw [ha]; exact List.mem_cons_self)) (by decide)
    obtain ⟨s₁,he,havail,hframes⟩ := threadCreate_nomemory (s :=
      { s.record (.call s.self (.threadCreate false) s.interrupts) with
        frames := .call (.threadCreate false)::.own::k }) ha hid
    simp only [doCall] at hr ⊢
    rw [he] at hr ⊢
    obtain ⟨rfl,-⟩ := returnsIn_call hframes hr
    refine ⟨rfl,_,s₁,rfl,fun _ hsame => ?_,fun hno => absurd ⟨rfl,hav⟩ hno⟩
    rw [havail,ha] at hsame
    exact absurd (congrArg List.length hsame) (by simp)
  · have hready : Startable s := fun x hx =>
      ⟨(hs.ready_range hx).2,hs.ready x hx,hs.ne_current_of_ready hx⟩
    obtain ⟨v',s₁,hu,hframes,he⟩ := (harmless_doCall (hctl.call (k := k) c')
      (noFailure_called rfl) hready (fun hm => hs.ne_current_of_available hm rfl) hc' hmem).resolve_left
      hfail
    rw [he] at hr ⊢
    obtain ⟨rfl,-⟩ := returnsIn_call hframes hr
    exact ⟨rfl,v',s₁,rfl,fun hno => absurd hno hmem,fun _ => { hu with }⟩

/-- A call that returns an error code returns in the step that makes it, and has changed nothing
unless it is a `thread_create` that has an identifier for the new thread but no stack. -/
theorem failed_call_unchanged {a : Action} {c : Call} {v : ℤ} (h : Reachable anyStep s)
    (hst : step s a = some s') (hc : Fallible c) (hr : ReturnsIn s s' c v) (hv : v < 0) :
    a = .call c ∧ (Unchanged s s' ↔ ¬ (c = .threadCreate false ∧ s.availableThreadIds ≠ [])) := by
  obtain ⟨rfl,v',s₁,rfl,htaken,hsame⟩ := returns_at_once h hst hc hr hv
  refine ⟨rfl,⟨fun hu hmem => htaken hmem ?_,fun hmem => (hsame hmem).return_ v'⟩⟩
  have hreturned := ((Unchanged.refl s₁).return_ v').availableThreadIds
  exact hreturned.symm.trans hu.availableThreadIds

end Steps

/-- The main thread's first call finds no memory for the stack of thread 1. -/
def afterNoMemory : State := final step [.call (.threadCreate false)] threadInit (by decide +kernel)

theorem afterNoMemory_history : afterNoMemory.history =
    [.ret ⟨0,0⟩ (.threadCreate false) threadNomemory true,.call ⟨0,0⟩ (.threadCreate false) true] := by
  decide +kernel

/-- Identifier 1 is lost. -/
theorem nomemory_loses_id : Reachable anyStep threadInit ∧
    step threadInit (.call (.threadCreate false)) = some afterNoMemory ∧
    ReturnsIn threadInit afterNoMemory (.threadCreate false) threadNomemory ∧ threadNomemory < 0 ∧
    ¬ Unchanged threadInit afterNoMemory := by
  refine ⟨.init,step_of_final rfl,⟨_,_,_,afterNoMemory_history,List.nil_suffix⟩,by decide,fun hu => ?_⟩
  have hl := congrArg List.length hu.availableThreadIds
  revert hl
  decide +kernel

/-- The main thread yields while no other thread exists. -/
def afterYieldNone : State := final step [.call (.threadYield threadAny)] threadInit (by decide +kernel)

theorem yieldNone_unchanged : Unchanged threadInit afterYieldNone := by
  have hh : afterYieldNone.history = [.ret ⟨0,0⟩ (.threadYield threadAny) threadNone true,
      .call ⟨0,0⟩ (.threadYield threadAny) true] := by decide +kernel
  have hx := failed_call_unchanged .init (step_of_final (rfl : afterYieldNone = _))
    (c := .threadYield threadAny) trivial ⟨_,_,_,hh,List.nil_suffix⟩ (by decide)
  exact hx.2.mpr (by simp)

end FailedCalls
end OsLabs

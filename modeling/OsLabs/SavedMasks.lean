import OsLabs.SchedulerRun

/-!
# Signal masks saved in frames

Every function of the package that disables interrupts keeps the mask it found in a local, so the
frames of a thread tell with which mask its call will return. `Controlled` says that this is the
mask at the call, for the running thread and for all the others, and that the values the frames
will return are identifiers. It is kept by every function of the package.
-/

namespace OsLabs
namespace SavedMasks

open ThreadModel Scheduler SchedulerView SchedulerRefinement SchedulerRun Transition

/-- The mask and the frames of a thread that stands at the given frames with the mask `m`, once
the functions it is in have restored the masks that they saved. -/
def settle (m : Bool) : List Frame → Bool × List Frame
  | .sleep e::k => settle e k
  | .wait _ e::k => settle e k
  | .acquire _ e::k => settle e k
  | .cvSlept _ _ e::k => settle e k
  | .cvReacquired _ _ e::k => settle e k
  | .yielded _ _ _ e::k => settle e k
  | .handler::k => settle true k
  | .killed _::k => settle m k
  | .destroy _::k => settle m k
  | .destroyed _::k => settle m k
  | k => (m,k)

/-- The last call of a thread instance, with the mask at the call. -/
def lastCall (i : Inst) : List Event → Option (Call × Bool)
  | [] => none
  | .call j c e::h => if j = i then some (c,e) else lastCall i h
  | _::h => lastCall i h

/-- A call is made by the thread's own code, and the values that will be returned to it from
here are identifiers. -/
def Proper : List Frame → Prop
  | .call _::k => k.head? = some .own
  | .yielded _ _ tookControl _::k => 0 ≤ tookControl ∧ Proper k
  | .wait tid _::k => 0 ≤ tid ∧ Proper k
  | .sleep _::k => Proper k
  | .acquire _ _::k => Proper k
  | .cvSlept _ _ _::k => Proper k
  | .cvReacquired _ _ _::k => Proper k
  | .handler::k => Proper k
  | .killed tid::k => 0 ≤ tid ∧ Proper k
  | .destroy _::k => Proper k
  | .destroyed _::k => Proper k
  | _ => True

/-- A thread instance stands at the frames `k` with the mask `m`: its call will return with the
mask it was made with, and `thread_stub` has enabled interrupts. -/
structure Stacked (i : Inst) (h : List Event) (m : Bool) (k : List Frame) : Prop where
  mask : ∀ c k', (settle m k).2 = .call c::k' → lastCall i h = some (c,(settle m k).1)
  started : Unchecked (settle m k).2 → (settle m k).1 = true
  proper : Proper k

/-- A call returns with the mask with which it was made. -/
def ReturnsMasked (e : Event) (older : List Event) : Prop :=
  ∀ i c v m, e = .ret i c v m → lastCall i older = some (c,m)

structure Controlled (s : State) : Prop where
  live : Stacked s.self s.history s.interrupts s.frames
  saved : ∀ t, t ≠ s.currentThreadId →
    Stacked (s.inst t) s.history (s.TCBs t).mycontext.interrupts (s.TCBs t).mycontext.frames
  current : 0 ≤ s.currentThreadId
  available : ∀ t ∈ s.availableThreadIds, 0 ≤ t
  ready : ∀ t ∈ s.readyQueue, 0 ≤ t
  waits : ∀ q, ∀ t ∈ s.waitQueues q, 0 ≤ t
  returns : Always ReturnsMasked s.history

/-- The event is neither a call nor a return. -/
def internal : Event → Bool
  | .call _ _ _ => false
  | .ret _ _ _ _ => false
  | _ => true

section Frames

variable {i : Inst} {h n : List Event} {m e : Bool} {k : List Frame}

theorem lastCall_append (hn : ∀ x ∈ n, internal x = true) : lastCall i (n ++ h) = lastCall i h := by
  induction n with
  | nil => rfl
  | cons x n ih =>
    have hx := hn x (by simp)
    have ih := ih fun y hy => hn y (by simp [hy])
    cases x with
    | call => simp [internal] at hx
    | _ => exact ih

theorem Stacked.append (hs : Stacked i h m k) (hn : ∀ x ∈ n, internal x = true) :
    Stacked i (n ++ h) m k :=
  ⟨fun c k' hc => (lastCall_append hn).trans (hs.mask c k' hc),hs.started,hs.proper⟩

theorem Stacked.call_of_ne (hs : Stacked i h m k) {j : Inst} (hj : j ≠ i) (c : Call) (e : Bool) :
    Stacked i (.call j c e::h) m k :=
  ⟨fun c' k' hc => by rw [lastCall,if_neg hj]; exact hs.mask c' k' hc,hs.started,hs.proper⟩

theorem Stacked.ret (hs : Stacked i h m k) (j : Inst) (c : Call) (v : ℤ) (e : Bool) :
    Stacked i (.ret j c v e::h) m k :=
  ⟨hs.mask,hs.started,hs.proper⟩

theorem Stacked.congr (hs : Stacked i h m k) {m' : Bool} {k' : List Frame}
    (hm : settle m' k' = settle m k) (hp : Proper k') : Stacked i h m' k' :=
  ⟨by rw [hm]; exact hs.mask,by rw [hm]; exact hs.started,hp⟩

theorem Stacked.idle (hk : settle m k = (m,k)) (hc : ∀ c k', k ≠ .call c::k')
    (hu : Unchecked k → m = true) (hp : Proper k) : Stacked i h m k := by
  refine ⟨fun c k' hk' => ?_,?_,hp⟩
  · rw [hk] at hk'
    exact absurd hk' (hc c k')
  · rw [hk]
    exact hu

/-- A thread whose own code runs has no call in progress. -/
theorem Stacked.own (hk : k.head? = some .own) : Stacked i h m k := by
  cases k with
  | nil => simp at hk
  | cons f k =>
    obtain rfl : f = .own := by simpa using hk
    exact .idle rfl (by simp) (by simp [Unchecked]) trivial

theorem Stacked.empty : Stacked i h m [] :=
  .idle rfl (by simp) (by simp [Unchecked]) trivial

end Frames

section Functions

variable {s s' : State}

/-- What does not touch the control points of the threads. -/
theorem Controlled.congr (h : Controlled s) {n : List Event}
    (hc : s'.currentThreadId = s.currentThreadId)
    (hg : ∀ t, (s'.TCBs t).generation = (s.TCBs t).generation)
    (hx : ∀ t, t ≠ s.currentThreadId → (s'.TCBs t).mycontext = (s.TCBs t).mycontext)
    (hm : s'.interrupts = s.interrupts) (hf : s'.frames = s.frames)
    (hh : s'.history = n ++ s.history) (hn : ∀ x ∈ n, internal x = true)
    (ha : ∀ t ∈ s'.availableThreadIds, 0 ≤ t) (hr : ∀ t ∈ s'.readyQueue, 0 ≤ t)
    (hw : ∀ q, ∀ t ∈ s'.waitQueues q, 0 ≤ t) : Controlled s' where
  live := by
    have hself : s'.self = s.self := by simp only [State.self,State.inst,hc,hg]
    rw [hself,hh,hm,hf]
    exact h.live.append hn
  saved t ht := by
    rw [hc] at ht
    have hi : s'.inst t = s.inst t := by simp only [State.inst,hg]
    rw [hi,hh,hx t ht]
    exact (h.saved t ht).append hn
  current := hc ▸ h.current
  available := ha
  ready := hr
  waits := hw
  returns := by
    rw [hh]
    refine h.returns.append fun e he older i c v m hret => ?_
    have := hn e he
    simp [hret,internal] at this

theorem Controlled.freeTCBStacks (h : Controlled s) : Controlled (freeTCBStacks s) := by
  have hb := freeTCBStacks_TCBs s
  refine h.congr (n := []) rfl (fun t => ?_) (fun t _ => ?_) rfl rfl rfl (by simp) h.available h.ready
    h.waits
  · obtain ⟨b,hb⟩ := hb t
    rw [hb]
  · obtain ⟨b,hb⟩ := hb t
    rw [hb]

theorem Controlled.modify (h : Controlled s) (t : Tid) {f : Thread → Thread}
    (hg : ∀ th, (f th).generation = th.generation)
    (hx : t ≠ s.currentThreadId → ∀ th, (f th).mycontext = th.mycontext) :
    Controlled (s.modify t f) := by
  refine h.congr (n := []) rfl (fun u => ?_) (fun u hu => ?_) rfl rfl rfl (by simp) h.available h.ready
    h.waits
  · by_cases hut : u = t <;> simp [State.modify,hut,hg]
  · by_cases hut : u = t
    · subst hut
      simp [State.modify,hx hu]
    · simp [State.modify,hut]

theorem Controlled.record (h : Controlled s) {e : Event} (he : internal e = true) :
    Controlled (s.record e) :=
  h.congr (n := [e]) rfl (fun _ => rfl) (fun _ _ => rfl) rfl rfl rfl (by simpa using he) h.available
    h.ready h.waits

/-- The running thread goes to other frames, with another mask. -/
theorem Controlled.goto (h : Controlled s) {m : Bool} {k : List Frame}
    (hs : Stacked s.self s.history m k) : Controlled { s with interrupts := m, frames := k } :=
  { h with live := hs }

/-! ### Returns, switches and exit -/

/-- A return restores the masks that the frames have saved. -/
theorem Controlled.returnTo : ∀ (k : List Frame) (v : ℤ) (s : State),
    Controlled { s with frames := k } → Controlled (returnTo v k s)
  | [], _, _, h => h
  | f::k, v, s, h => by
    have hl := h.live
    cases f with
    | sleep e =>
      exact Controlled.returnTo k v { s with interrupts := e } (h.goto (hl.congr rfl hl.proper))
    | wait tid e =>
      exact Controlled.returnTo k tid { s with interrupts := e } (h.goto (hl.congr rfl hl.proper.2))
    | cvReacquired cv l e =>
      exact Controlled.returnTo k v { s with interrupts := e } (h.goto (hl.congr rfl hl.proper))
    | handler => exact h.goto (hl.congr rfl hl.proper)
    | call c =>
      have hret : lastCall s.self s.history = some (c,s.interrupts) := hl.mask c k rfl
      refine { h with
        live := .own hl.proper
        saved := fun t ht => (h.saved t ht).ret _ _ _ _
        returns := always_cons.mpr ⟨?_,h.returns⟩ }
      rintro i c' v' m he
      cases he
      exact hret
    | _ => exact h

theorem Controlled.return_ (h : Controlled s) (v : ℤ) : Controlled (return_ v s) :=
  Controlled.returnTo s.frames v s h

/-- The running thread has saved its control point, so that any thread may run next. -/
structure Parked (s : State) : Prop where
  controlled : Controlled s
  own : Stacked s.self s.history s.tcb.mycontext.interrupts s.tcb.mycontext.frames

theorem Parked.switchTo (h : Parked s) {x : Tid} (hx : 0 ≤ x) : Controlled (switchTo x s) := by
  have hi : ∀ t, (ThreadModel.switchTo x s).inst t = s.inst t := by
    intro t
    by_cases ht : t = x <;> simp [ThreadModel.switchTo,setcontext,State.modify,State.inst,ht]
  have hc : ∀ t, ((ThreadModel.switchTo x s).TCBs t).mycontext = (s.TCBs t).mycontext := by
    intro t
    by_cases ht : t = x <;> simp [ThreadModel.switchTo,setcontext,State.modify,ht]
  have hall : ∀ t, Stacked (s.inst t) s.history (s.TCBs t).mycontext.interrupts
      (s.TCBs t).mycontext.frames := by
    intro t
    by_cases ht : t = s.currentThreadId
    · subst ht; exact h.own
    · exact h.controlled.saved t ht
  refine { h.controlled with
    live := ?_
    saved := fun t _ => by rw [hi,hc]; exact hall t
    current := hx }
  change Stacked ((ThreadModel.switchTo x s).inst x) s.history
    ((ThreadModel.switchTo x s).TCBs x).mycontext.interrupts
    ((ThreadModel.switchTo x s).TCBs x).mycontext.frames
  rw [hi,hc]
  exact hall x

theorem Controlled.waits_ne (h : Controlled s) (q : WaitQueue) : ∀ t ∈ s.waitQueues q, t ≠ -1 := by
  rintro t ht rfl
  exact absurd (h.waits q _ ht) (by decide)

theorem Controlled.exited (h : Controlled s) (marked : Bool) :
    Controlled { exited marked s with interrupts := s.interrupts } := by
  refine h.congr (n := ((s.waitQueues (.tWait s.currentThreadId)).map fun t =>
      Event.woken (s.inst t) (.tWait s.currentThreadId) .threadExit).reverse ++
    [.exited s.self marked]) rfl (fun t => ?_) (fun t ht => ?_) rfl rfl ?_ ?_ ?_ ?_ ?_
  · by_cases ht : t = s.currentThreadId <;> simp [SchedulerView.exited,ht]
  · simp [SchedulerView.exited,ht]
  · simp [SchedulerView.exited]
  · intro x hx
    rcases List.mem_append.mp hx with hx | hx
    · obtain ⟨t,-,rfl⟩ := List.mem_map.mp (List.mem_reverse.mp hx)
      rfl
    · obtain rfl := List.mem_singleton.mp hx
      rfl
  · intro t ht
    rcases List.mem_cons.mp ht with rfl | ht
    · exact h.current
    · exact h.available t ht
  · intro t ht
    rcases List.mem_append.mp ht with ht | ht
    · exact h.ready t ht
    · exact h.waits _ t ht
  · intro q t ht
    simp only [SchedulerView.exited] at ht
    split at ht
    · simp at ht
    · exact h.waits q t ht

/-- What a function of the package comes to: nothing is said of a process that has ended. -/
structure Proceeds (s : State) : Prop where
  returns : Always ReturnsMasked s.history
  controlled : s.status = .running → Controlled s

theorem Controlled.proceeds (h : Controlled s) : Proceeds s := ⟨h.returns,fun _ => h⟩

/-- The frames and the mask of a thread that ends are not looked at any more. -/
theorem Controlled.threadExit {m : Bool} (h : Controlled { s with interrupts := m }) (marked : Bool) :
    Proceeds (ThreadModel.threadExit marked s) := by
  rw [threadExit_eq (s := s) (h.waits_ne _)]
  have he : Controlled { SchedulerView.exited marked s with interrupts := m } := h.exited marked
  cases hr : (SchedulerView.exited marked s).readyQueue with
  | nil =>
    simp only [removeNextReadyThread,hr,if_true]
    exact ⟨he.returns,fun hst => absurd hst (by simp)⟩
  | cons x rest =>
    have hx : 0 ≤ x := he.ready x (by change x ∈ (SchedulerView.exited marked s).readyQueue; rw [hr]; exact List.mem_cons_self)
    have hne : x ≠ -1 := by rintro rfl; exact absurd hx (by decide)
    simp only [removeNextReadyThread,hr,hne,if_false]
    have hp : Parked { SchedulerView.exited marked s with readyQueue := rest, frames := [] } := by
      refine ⟨{ he with
        live := .empty
        ready := fun t ht => he.ready t ?_ },?_⟩
      · change t ∈ (SchedulerView.exited marked s).readyQueue
        rw [hr]
        exact List.mem_cons_of_mem x ht
      · have hm : ((SchedulerView.exited marked s).TCBs s.currentThreadId).mycontext = ⟨[],false⟩ := by
          simp [SchedulerView.exited]
        change Stacked _ _ ((SchedulerView.exited marked s).TCBs s.currentThreadId).mycontext.interrupts
          ((SchedulerView.exited marked s).TCBs s.currentThreadId).mycontext.frames
        rw [hm]
        exact .empty
    exact (hp.switchTo hx).proceeds

/-! ### Yield and sleep -/

/-- The yielding block does not look at the frames and the mask of the running thread. -/
theorem yieldingBlock_of_frames (x o : Tid) (m : Bool) (k : List Frame) (s : State) :
    yieldingBlock x o { s with interrupts := m, frames := k } = yieldingBlock x o s := by
  cases hq : (s.TCBs s.currentThreadId).waitQueue <;>
    simp [yieldingBlock,switchTo,setcontext,State.tcb,State.modify,State.record,State.setQueue,
      pushThreadToWait,addToTail,State.self,State.inst,hq]

/-- The yielding block, entered with the control point saved. -/
theorem Parked.yieldingBlock (h : Parked s) {x o : Tid} (hx : 0 ≤ x) :
    Controlled (yieldingBlock x o s) := by
  let s₁ := s.modify s.currentThreadId fun t => { t with tState := .ready }
  have h₁ : Parked s₁ := by
    refine ⟨h.controlled.modify _ (fun _ => rfl) (fun _ _ => rfl),?_⟩
    simpa [s₁,State.modify,State.self,State.inst,State.tcb] using h.own
  have step : ∀ s₂ : State, Controlled s₂ → s₂.currentThreadId = s.currentThreadId →
      s₂.self = s₁.self → s₂.tcb.mycontext = s₁.tcb.mycontext →
      (∃ n, s₂.history = n ++ s₁.history ∧ ∀ e ∈ n, internal e = true) →
      Controlled (ThreadModel.switchTo x (s₂.modify o fun t => { t with setcontextCalled := true })) := by
    rintro s₂ hc₂ hcur hself hctx ⟨n,hh,hn⟩
    refine Parked.switchTo ⟨hc₂.modify o (f := fun t => { t with setcontextCalled := true })
      (fun _ => rfl) (fun _ _ => rfl),?_⟩ hx
    have hm : (s₂.modify o fun t => { t with setcontextCalled := true }).tcb.mycontext =
        s₂.tcb.mycontext := by
      simp only [State.tcb,State.modify]
      split <;> rfl
    have hs : (s₂.modify o fun t => { t with setcontextCalled := true }).self = s₂.self := by
      simp only [State.self,State.inst,State.modify]
      split <;> rfl
    rw [hm,hs,hctx,hself]
    change Stacked _ s₂.history _ _
    rw [hh]
    exact h₁.own.append hn
  have hwait : s₁.tcb.waitQueue = s.tcb.waitQueue := by
    simp [s₁,State.tcb,State.modify]
  unfold ThreadModel.yieldingBlock
  dsimp only
  cases hq : s₁.tcb.waitQueue with
  | none =>
    refine step (addToTail s.currentThreadId s₁) ?_ rfl rfl rfl ⟨[],rfl,by simp⟩
    refine { h₁.controlled with ready := fun t ht => ?_ }
    rcases List.mem_append.mp ht with ht | ht
    · exact h.controlled.ready t ht
    · rw [List.mem_singleton.mp ht]; exact h.controlled.current
  | some queue =>
    refine step _ ?_ rfl ?_ ?_ ⟨[.slept s₁.self queue],rfl,by simp [internal]⟩
    · refine Controlled.modify (Controlled.record ?_ rfl) _ (fun _ => rfl) (fun _ _ => rfl)
      refine { h₁.controlled with waits := fun q t ht => ?_ }
      simp only [pushThreadToWait,State.setQueue] at ht
      split at ht
      · rcases List.mem_append.mp ht with ht | ht
        · exact h.controlled.waits _ t ht
        · rw [List.mem_singleton.mp ht]; exact h.controlled.current
      · exact h.controlled.waits q t ht
    · simp [State.self,State.inst,State.modify,State.record,pushThreadToWait,State.setQueue,s₁]
    · simp [State.tcb,State.modify,State.record,pushThreadToWait,State.setQueue,s₁]

/-- `thread_yield` goes on after a switch back to the thread, or after none. -/
theorem Controlled.resumed {enabled : Bool} (h : Controlled { s with interrupts := enabled }) (v : ℤ) :
    Controlled (ThreadModel.return_ v { s.modify s.currentThreadId
      (fun t => { t with setcontextCalled := false }) with interrupts := enabled }) :=
  Controlled.return_ (Controlled.modify h s.currentThreadId
    (f := fun t => { t with setcontextCalled := false }) (fun _ => rfl) (fun _ _ => rfl)) v

/-- `thread_yield` from the return of `getcontext` on. -/
theorem Controlled.afterGetcontext {x o tk : Tid} {enabled : Bool}
    (h : Controlled { s with interrupts := enabled })
    (hp : s.tcb.setcontextCalled = false → 0 ≤ x ∧
      Stacked s.self s.history s.tcb.mycontext.interrupts s.tcb.mycontext.frames) :
    Proceeds (ThreadModel.afterGetcontext x o tk enabled s) := by
  have hf := h.freeTCBStacks
  obtain ⟨b,hb⟩ := freeTCBStacks_TCBs s s.currentThreadId
  have htcb : (ThreadModel.freeTCBStacks s).tcb = { s.tcb with stackToFree := b } := hb
  simp only [ThreadModel.afterGetcontext]
  split
  · exact Controlled.threadExit hf true
  split
  · rename_i hc
    rw [htcb] at hc
    obtain ⟨hx,hown⟩ := hp hc
    have hown' : Stacked (ThreadModel.freeTCBStacks s).self (ThreadModel.freeTCBStacks s).history
        (ThreadModel.freeTCBStacks s).tcb.mycontext.interrupts
        (ThreadModel.freeTCBStacks s).tcb.mycontext.frames := by
      have hself : (ThreadModel.freeTCBStacks s).self = s.self := by
        change Inst.mk _ ((ThreadModel.freeTCBStacks s).TCBs s.currentThreadId).generation = _
        rw [hb]
        rfl
      rw [hself,htcb]
      exact hown
    -- the mask and the frames of the running thread are replaced at the switch
    have hpark : Parked { ThreadModel.freeTCBStacks s with interrupts := false, frames := [] } :=
      ⟨hf.goto .empty,hown'⟩
    have hy := hpark.yieldingBlock (o := o) hx
    rw [yieldingBlock_of_frames] at hy
    exact hy.proceeds
  · exact (Controlled.resumed (s := ThreadModel.freeTCBStacks s) hf tk).proceeds

theorem Controlled.yieldTo {x : Tid} {enabled : Bool} (hx : 0 ≤ x)
    (h : Controlled { s with interrupts := enabled }) :
    Proceeds (ThreadModel.yieldTo x enabled s) := by
  have hm := Controlled.modify h s.currentThreadId (f := fun t => { t with
    mycontext := ⟨.yielded x s.currentThreadId x enabled::s.frames,s.interrupts⟩ })
    (fun _ => rfl) (fun hn => absurd rfl hn)
  refine Controlled.afterGetcontext hm fun _ => ⟨hx,?_⟩
  have hst : Stacked s.self s.history s.interrupts
      (.yielded x s.currentThreadId x enabled::s.frames) := h.live.congr rfl ⟨hx,h.live.proper⟩
  simpa [State.self,State.inst,State.tcb,State.modify] using hst

theorem Controlled.threadYield (h : Controlled s) (w : Tid) : Proceeds (ThreadModel.threadYield w s) := by
  rcases threadYield_cases w s with ⟨v,hv⟩ | ⟨x,hx,-,hv⟩
  · rw [hv]
    exact (h.return_ v).proceeds
  · rw [hv]
    exact Controlled.yieldTo (h.ready x hx)
      { h with ready := fun t ht => h.ready t (List.mem_of_mem_erase ht) }

theorem Controlled.threadSleep (h : Controlled s) (q : Option WaitQueue) :
    Proceeds (ThreadModel.threadSleep q s) := by
  cases q with
  | none => exact (h.return_ _).proceeds
  | some queue =>
    simp only [ThreadModel.threadSleep]
    split
    · exact (h.return_ _).proceeds
    · have hm := h.modify s.currentThreadId (f := fun t => { t with waitQueue := some queue })
        (fun _ => rfl) (fun _ _ => rfl)
      exact Controlled.threadYield (hm.goto (m := false) (k := .sleep s.interrupts::s.frames)
        (hm.live.congr rfl hm.live.proper)) _

/-! ### Calls -/

theorem Controlled.threadWakeup (h : Controlled s) (waker : Waker) (queue : WaitQueue) (all : ℤ) :
    Controlled (ThreadModel.threadWakeup waker queue all s).2 := by
  obtain ⟨l,rest,hq,-,-,-,hs⟩ := threadWakeup_eq waker queue all s (h.waits_ne queue)
  rw [hs]
  refine h.congr (n := (l.map fun t => Event.woken (s.inst t) queue waker).reverse) rfl (fun _ => rfl)
    (fun _ _ => rfl) rfl rfl rfl ?_ h.available ?_ ?_
  · intro x hx
    obtain ⟨t,-,rfl⟩ := List.mem_map.mp (List.mem_reverse.mp hx)
    rfl
  · intro t ht
    rcases List.mem_append.mp ht with ht | ht
    · exact h.ready t ht
    · exact h.waits queue t (by rw [hq]; exact List.mem_append_left rest ht)
  · intro q t ht
    simp only at ht
    split at ht
    · exact h.waits queue t (by rw [hq]; exact List.mem_append_right l ht)
    · exact h.waits q t ht

theorem Controlled.setLock (h : Controlled s) (lock : ℕ) (l : Option Lock) :
    Controlled (s.setLock lock l) := { h with }

theorem Controlled.releaseLock (h : Controlled s) (lock : ℕ) :
    Controlled (ThreadModel.releaseLock lock s) := by
  simp only [ThreadModel.releaseLock]
  split
  · exact (((h.record rfl).threadWakeup _ _ _).setLock _ _).record rfl
  · exact h

theorem Controlled.leaves (h : Controlled s) {st : Status} (hst : st ≠ .running) :
    Proceeds { s with status := st } :=
  ⟨h.returns,fun hr => absurd hr hst⟩

theorem Controlled.withLock (h : Controlled s) {lock : ℕ} {f : State → State} (hf : Proceeds (f s)) :
    Proceeds (ThreadModel.withLock lock f s) := by
  simp only [ThreadModel.withLock]
  split
  · exact hf
  · exact h.leaves (by simp)

theorem Controlled.withQueue (h : Controlled s) {queue : WaitQueue} {f : State → State}
    (hf : Proceeds (f s)) : Proceeds (ThreadModel.withQueue queue f s) := by
  simp only [ThreadModel.withQueue]
  split
  · exact h.leaves (by simp)
  · exact hf

theorem Controlled.acquireLoop {lock : ℕ} {enabled : Bool}
    (h : Controlled { s with interrupts := enabled }) :
    Proceeds (ThreadModel.acquireLoop lock enabled s) := by
  simp only [ThreadModel.acquireLoop]
  split
  · exact ⟨h.returns,fun hr => absurd hr (by simp)⟩
  split
  · exact (Controlled.return_ (Controlled.record (h.setLock lock _) rfl) 0).proceeds
  · exact Controlled.threadSleep (h.goto (m := s.interrupts) (k := .acquire lock enabled::s.frames)
      (h.live.congr rfl h.live.proper)) _

theorem Controlled.lockAcquire (h : Controlled s) (lock : ℕ) :
    Proceeds (ThreadModel.lockAcquire lock s) :=
  Controlled.acquireLoop (s := { s with interrupts := false }) h

theorem Controlled.cvWait (h : Controlled s) (cv lock : ℕ) : Proceeds (ThreadModel.cvWait cv lock s) := by
  refine h.withQueue (h.withLock ?_)
  split
  · have hp := h.record (e := .passed s.self lock) rfl
    exact Controlled.threadSleep (Controlled.releaseLock (hp.goto (m := false)
      (k := .cvSlept cv lock s.interrupts::s.frames) (hp.live.congr rfl hp.live.proper)) lock) _
  · exact (h.return_ 0).proceeds

theorem Controlled.cvWakeup (h : Controlled s) (waker : Waker) (all : ℤ) (cv lock : ℕ) :
    Proceeds (ThreadModel.cvWakeup waker all cv lock s) := by
  refine h.withQueue (h.withLock ?_)
  split
  · exact (((h.record rfl).threadWakeup _ _ _).return_ 0).proceeds
  · exact (h.return_ 0).proceeds

theorem Controlled.waitQueueDestroy (h : Controlled s) (queue : WaitQueue) :
    Proceeds (ThreadModel.waitQueueDestroy queue s) :=
  h.withQueue (h.goto (m := s.interrupts) (k := .destroy queue::s.frames)
    (h.live.congr rfl h.live.proper)).proceeds

theorem Controlled.lockDestroy (h : Controlled s) (lock : ℕ) :
    Proceeds (ThreadModel.lockDestroy lock s) := by
  simp only [ThreadModel.lockDestroy]
  split
  · exact h.leaves (by simp)
  split
  · exact h.leaves (by simp)
  · exact h.waitQueueDestroy _

theorem Controlled.destroyLoop (h : Controlled s) (queue : WaitQueue) :
    Proceeds (ThreadModel.destroyLoop queue s) := by
  refine h.withQueue ?_
  cases hq : s.waitQueues queue with
  | nil =>
    simp only [popHeadThreadWait,hq,if_true]
    exact (h.goto (m := s.interrupts) (k := .destroyed queue::s.frames)
      (h.live.congr rfl h.live.proper)).proceeds
  | cons t rest =>
    have ht : t ≠ -1 := h.waits_ne _ t (by rw [hq]; exact List.mem_cons_self)
    simp only [popHeadThreadWait,hq,ht,if_false]
    have hset : Controlled (s.setQueue queue rest) := by
      refine { h with waits := fun q u hu => ?_ }
      simp only [State.setQueue] at hu
      split at hu
      · exact h.waits _ u (by rw [hq]; exact List.mem_cons_of_mem t hu)
      · exact h.waits q u hu
    have hrec := hset.record (e := .discarded t queue) rfl
    exact (hrec.goto (m := s.interrupts) (k := .destroy queue::s.frames)
      (hrec.live.congr rfl hrec.live.proper)).proceeds

theorem Controlled.freeWaitQueue (h : Controlled s) (queue : WaitQueue) :
    Controlled (ThreadModel.freeWaitQueue queue s) := by
  refine h.congr rfl (fun _ => rfl) (fun _ _ => rfl) rfl rfl rfl (fun e he => ?_) h.available h.ready
    fun q t ht => ?_
  · obtain ⟨t,-,rfl⟩ := List.mem_map.mp (List.mem_reverse.mp he)
    rfl
  · simp only [ThreadModel.freeWaitQueue,State.setQueue] at ht
    split at ht
    · cases ht
    · exact h.waits q t ht

theorem Controlled.destroyEnd (h : Controlled s) (queue : WaitQueue) :
    Proceeds (ThreadModel.destroyEnd queue s) := by
  refine h.withQueue ?_
  cases queue with
  | waitOnLock lock => exact (((h.freeWaitQueue _).setLock lock none).return_ 0).proceeds
  | _ => exact ((h.freeWaitQueue _).return_ 0).proceeds

theorem Controlled.threadWait (h : Controlled s) (tid : Tid) :
    Proceeds (ThreadModel.threadWait tid s) := by
  simp only [ThreadModel.threadWait]
  split
  · exact (h.return_ _).proceeds
  split
  · exact h.leaves (by simp)
  split
  · exact (h.return_ _).proceeds
  · rename_i h₁ _ _
    rw [not_or] at h₁
    exact Controlled.threadSleep (h.goto (m := false) (k := .wait tid s.interrupts::s.frames)
      (h.live.congr rfl ⟨not_lt.mp h₁.1,h.live.proper⟩)) _

theorem Controlled.threadKill (h : Controlled s) (tid : Tid) :
    Proceeds (ThreadModel.threadKill tid s) := by
  simp only [ThreadModel.threadKill]
  split
  · exact (h.return_ _).proceeds
  split
  · exact (h.return_ _).proceeds
  split
  · exact h.leaves (by simp)
  split
  · exact (h.return_ _).proceeds
  · rename_i h₀ _
    have hm := (h.modify tid (f := fun t => { t with killOnNextRun := true }) (fun _ => rfl)
      (fun _ _ => rfl)).record (e := .killed s.self (s.inst tid)) rfl
    exact (hm.goto (m := s.interrupts) (k := .killed tid::s.frames)
      (hm.live.congr rfl ⟨not_lt.mp h₀,hm.live.proper⟩)).proceeds

/-- A new thread starts in `thread_stub`; its identifier is not the one of the running thread. -/
theorem Controlled.threadCreate (h : Controlled s) (hc : s.currentThreadId ∉ s.availableThreadIds)
    (stack : Bool) : Proceeds (ThreadModel.threadCreate stack s) := by
  have h₁ := h.modify s.currentThreadId (f := fun t => { t with mycontext := ⟨s.frames,false⟩ })
    (fun _ => rfl) (fun hn => absurd rfl hn)
  cases ha : s.availableThreadIds with
  | nil =>
    have he : ThreadModel.threadCreate stack s = ThreadModel.return_ threadNomore
        (s.modify s.currentThreadId fun t => { t with mycontext := ⟨s.frames,false⟩ }) := by
      simp [ThreadModel.threadCreate,removeFromHead,State.modify,ha]
    rw [he]
    exact (h₁.return_ _).proceeds
  | cons id rest =>
    have hid : 0 ≤ id := h.available id (by rw [ha]; exact List.mem_cons_self)
    have hne : id ≠ -1 := by rintro rfl; exact absurd hid (by decide)
    have hcur : id ≠ s.currentThreadId := by
      rintro rfl
      exact hc (by rw [ha]; exact List.mem_cons_self)
    have hrest : ∀ t ∈ rest, 0 ≤ t := fun t ht => h.available t (by rw [ha]; exact List.mem_cons_of_mem id ht)
    cases stack with
    | false =>
      have he : ThreadModel.threadCreate false s = ThreadModel.return_ threadNomemory
          (({ s.modify s.currentThreadId (fun t => { t with mycontext := ⟨s.frames,false⟩ }) with
            availableThreadIds := rest }).modify id fun t => { t with stackToFree := false }) := by
        simp [ThreadModel.threadCreate,removeFromHead,State.modify,ha,hne]
      rw [he]
      have h₂ : Controlled { s.modify s.currentThreadId
          (fun t => { t with mycontext := ⟨s.frames,false⟩ }) with availableThreadIds := rest } :=
        { h₁ with available := hrest }
      exact ((h₂.modify id (f := fun t => { t with stackToFree := false }) (fun _ => rfl)
        (fun _ _ => rfl)).return_ _).proceeds
    | true =>
      rw [threadCreate_eq ha hne hcur]
      refine (Controlled.return_ ?_ _).proceeds
      have hself : (created id rest s).self = s.self := by
        simp [State.self,State.inst,created,hcur.symm]
      refine {
        live := ?_
        saved := fun t ht => ?_
        current := h.current
        available := hrest
        ready := fun t ht => ?_
        waits := h.waits
        returns := always_cons.mpr ⟨fun i c v m he => (by simp at he),h.returns⟩ }
      · rw [hself]
        exact h.live.append (n := [_]) (by simp [internal])
      · by_cases hti : t = id
        · subst hti
          simp only [created,if_true]
          exact .idle rfl (by simp) (by simp [Unchecked]) trivial
        · have ht' : t ≠ s.currentThreadId := ht
          have hi : (created id rest s).inst t = s.inst t := by
            simp [State.inst,created,hti,ht']
          rw [hi]
          simp only [created,hti,ht',if_false]
          exact (h.saved t ht').append (n := [_]) (by simp [internal])
      · rcases List.mem_append.mp ht with ht | ht
        · exact h.ready t ht
        · rw [List.mem_singleton.mp ht]; exact hid

theorem Controlled.doCall (h : Controlled s) (hc : s.currentThreadId ∉ s.availableThreadIds) (c : Call) :
    Proceeds (ThreadModel.doCall c s) := by
  cases c with
  | threadId => exact (h.return_ _).proceeds
  | threadCreate stack => exact h.threadCreate hc stack
  | threadYield w => exact h.threadYield w
  | threadExit => exact Controlled.threadExit h false
  | threadKill tid => exact h.threadKill tid
  | threadSleep q =>
    cases q with
    | none => exact h.threadSleep none
    | some n => exact h.withQueue (h.threadSleep _)
  | threadWakeup q all =>
    cases q with
    | none => exact (h.return_ _).proceeds
    | some n =>
      exact h.withQueue (f := fun s =>
        let r := ThreadModel.threadWakeup .threadWakeup (.created n) all s
        ThreadModel.return_ r.1 r.2) ((h.threadWakeup _ _ _).return_ _).proceeds
  | threadWait tid => exact h.threadWait tid
  | lockAcquire lock => exact h.lockAcquire lock
  | lockRelease lock =>
    exact h.withLock (f := fun s => ThreadModel.return_ 0 (ThreadModel.releaseLock lock s))
      ((h.releaseLock lock).return_ 0).proceeds
  | lockDestroy lock => exact h.lockDestroy lock
  | cvDestroy cv => exact h.waitQueueDestroy _
  | waitQueueDestroy q =>
    cases q with
    | none => exact h.leaves (by simp)
    | some n => exact h.waitQueueDestroy _
  | cvWait cv lock => exact h.cvWait cv lock
  | cvSignal cv lock => exact h.cvWakeup _ _ cv lock
  | cvBroadcast cv lock => exact h.cvWakeup _ _ cv lock

/-! ### Steps and runs -/

theorem Controlled.resume (h : Controlled s) (hy : ∀ n o tk e k, s.frames = .yielded n o tk e::k →
    s.tcb.setcontextCalled = true) (hst : resume s = some s') : Proceeds s' := by
  have hl := h.live
  have go : ∀ {k : List Frame} {m : Bool}, settle m k = settle s.interrupts s.frames → Proper k →
      Controlled { s with interrupts := m, frames := k } := fun hm hp => h.goto (hl.congr hm hp)
  simp only [ThreadModel.resume] at hst
  split at hst
  case h_1 k hf =>
    obtain rfl := Option.some.inj hst
    exact (h.goto (m := true) (k := .stubResponsibilities::k)
      (.idle rfl (by simp) (fun _ => rfl) trivial)).proceeds
  case h_2 k hf =>
    obtain rfl := Option.some.inj hst
    have hfree := h.freeTCBStacks
    refine (hfree.goto (m := s.interrupts) (k := .stubKillCheck::k)
      (.idle rfl (by simp) (fun hu => ?_) trivial)).proceeds
    have hk : k = [] := by simpa [Unchecked] using hu
    have hst := hl.started
    rw [hf,hk] at hst
    exact hst (.inl rfl)
  case h_3 k hf =>
    split at hst
    · obtain rfl := Option.some.inj hst
      exact Controlled.threadExit h true
    · obtain rfl := Option.some.inj hst
      exact (h.goto (m := s.interrupts) (.own rfl)).proceeds
  case h_4 k hf =>
    obtain rfl := Option.some.inj hst
    exact Controlled.threadExit h false
  case h_5 n o tk e k hf =>
    obtain rfl := Option.some.inj hst
    have hp := hl.proper
    rw [hf] at hp
    refine Controlled.afterGetcontext (s := { s with frames := k })
      (go (m := e) (k := k) (by rw [hf]; rfl) hp.2) fun hc => ?_
    have hc' : s.tcb.setcontextCalled = false := hc
    rw [hy n o tk e k hf] at hc'
    cases hc'
  case h_6 lock e k hf =>
    obtain rfl := Option.some.inj hst
    have hp := hl.proper
    rw [hf] at hp
    exact Controlled.acquireLoop (s := { s with frames := k }) (go (m := e) (by rw [hf]; rfl) hp)
  case h_7 cv lock e k hf =>
    obtain rfl := Option.some.inj hst
    have hp := hl.proper
    rw [hf] at hp
    exact Controlled.lockAcquire (go (m := s.interrupts) (k := .cvReacquired cv lock e::k)
      (by rw [hf]; rfl) hp) lock
  case h_8 tid k hf =>
    obtain rfl := Option.some.inj hst
    have hp := hl.proper
    rw [hf] at hp
    exact (Controlled.return_ (go (m := s.interrupts) (k := k) (by rw [hf]; rfl) hp.2) tid).proceeds
  case h_9 queue k hf =>
    obtain rfl := Option.some.inj hst
    have hp := hl.proper
    rw [hf] at hp
    exact Controlled.destroyLoop (go (m := s.interrupts) (k := k) (by rw [hf]; rfl) hp) queue
  case h_10 queue k hf =>
    obtain rfl := Option.some.inj hst
    have hp := hl.proper
    rw [hf] at hp
    exact Controlled.destroyEnd (go (m := s.interrupts) (k := k) (by rw [hf]; rfl) hp) queue
  case h_11 => cases hst

theorem Controlled.call (h : Controlled s) {k : List Frame} (c : Call) :
    Controlled { s.record (.call s.self c s.interrupts) with frames := .call c::.own::k } where
  live := by
    refine ⟨fun c' k' hc => ?_,fun hu => by simp [settle,Unchecked] at hu,rfl⟩
    obtain ⟨rfl,-⟩ : c = c' ∧ _ := by simpa [settle] using hc
    change lastCall s.self (.call s.self c s.interrupts::s.history) = some (c,s.interrupts)
    rw [lastCall,if_pos rfl]
  saved t ht := by
    refine (h.saved t ht).call_of_ne ?_ c s.interrupts
    intro he
    exact ht (congrArg Inst.tid he).symm
  current := h.current
  available := h.available
  ready := h.ready
  waits := h.waits
  returns := always_cons.mpr ⟨fun i c v m he => (by cases he),h.returns⟩

theorem Controlled.step {a : Action} (h : Controlled s) (hs : Sound Set.univ (view s))
    (hc : Control Set.univ s) (hst : step s a = some s') : Proceeds s' := by
  have own : ∀ {m : Bool} {k : List Frame}, Stacked s.self (.own s.self::s.history) m k →
      Controlled { s.record (.own s.self) with interrupts := m, frames := k } := fun hk =>
    (h.record rfl).goto hk
  simp only [ThreadModel.step] at hst
  split at hst
  · cases hst
  cases a with
  | run =>
    refine h.resume (fun n o tk e k hf => ?_) hst
    cases hc.here with
    | entry hf' => simp [hf] at hf'
    | point hp => rw [hf] at hp; cases hp with | own hb => cases hb
    | midway hm => rw [hf] at hm; cases hm
    | yielded _ _ _ _ _ _ _ _ hset => exact hset
  | timer =>
    simp only at hst
    split at hst
    · rename_i hi
      obtain rfl := Option.some.inj hst
      refine Controlled.threadYield (h.goto (m := false) (k := .handler::s.frames) ?_) _
      exact h.live.congr (by rw [hi]; rfl) h.live.proper
    · cases hst
  | call c =>
    simp only at hst
    split at hst
    · obtain rfl := Option.some.inj hst
      exact Controlled.doCall (h.call c) (fun hm => hs.ne_current_of_available hm rfl) c
    · cases hst
  | compute =>
    simp only at hst
    split at hst
    · rename_i hf
      obtain rfl := Option.some.inj hst
      exact (own (m := s.interrupts) (k := s.frames) (.own hf)).proceeds
    · cases hst
  | interruptsSet e =>
    simp only at hst
    split at hst
    · rename_i hf
      obtain rfl := Option.some.inj hst
      exact (own (k := s.frames) (.own hf)).proceeds
    · cases hst
  | finish =>
    simp only at hst
    split at hst
    · rename_i k hf
      obtain rfl := Option.some.inj hst
      exact (own (m := s.interrupts) (k := .stubReturn::k) (.idle rfl (by simp) (by simp [Unchecked]) trivial)).proceeds
    · cases hst

theorem threadInit_controlled : Controlled threadInit where
  live := .own rfl
  saved _ _ := .empty
  current := le_refl 0
  available t ht := by
    simp only [threadInit] at ht
    exact le_trans (by decide) (mem_available.mp ht).1
  ready t ht := by simp [threadInit] at ht
  waits q t ht := by simp [threadInit] at ht
  returns := always_nil

/-- Every state of every run. -/
theorem proceeds_of_reachable (h : Reachable anyStep s) : Proceeds s := by
  induction h with
  | init => exact threadInit_controlled.proceeds
  | @step t t' a hr _ hst ih =>
    have hrun : t.status = .running := by
      by_contra hn
      simp [ThreadModel.step,hn] at hst
    obtain ⟨hs,hc⟩ := sound_control_of_reachable hr hrun
    exact (ih.controlled hrun).step hs hc hst

end Functions

end SavedMasks
end OsLabs

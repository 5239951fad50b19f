import OsLabs.SchedulerRefinement

/-!
# Runs of the thread package

`Clean d s a` says that the step `a` from `s` does not show the defect `d`; it looks at
the state before the step only. A run whose steps are clean for all defects outside `D`
is a run of the scheduler with the defects `D`, so what every move of that scheduler
keeps holds in every state of the run.
-/

namespace OsLabs
namespace SchedulerRun

open ThreadModel Scheduler SchedulerView SchedulerRefinement

/-- `lock->isAcquired` -/
def taken (lock : ℕ) (s : State) : Bool :=
  match s.locks lock with
  | none => false
  | some l => l.isAcquired

theorem taken_iff {lock : ℕ} {s : State} : taken lock s = true ↔ (view s).Acquired lock := by
  cases h : s.locks lock <;> simp [taken,Sched.Acquired,view,h]

/-- The step takes a thread out of the ready queue in `thread_yield`. -/
def takesReady (s : State) : Action → Prop
  | .timer => s.readyQueue ≠ []
  | .call (.threadYield w) => if w = threadAny then s.readyQueue ≠ [] else w ∈ s.readyQueue
  | .call (.threadSleep q) => q.isSome ∧ s.readyQueue ≠ []
  | .call (.threadWait tid) => waitsFor tid s ∧ s.readyQueue ≠ []
  | .call (.lockAcquire lock) => taken lock s = true ∧ s.readyQueue ≠ []
  | .call (.cvWait _ lock) =>
      ownsLock lock s = true ∧ (s.readyQueue ≠ [] ∨ s.waitQueues (.waitOnLock lock) ≠ [])
  | .run => match s.frames with
      | .acquire lock _::_ => taken lock s = true ∧ s.readyQueue ≠ []
      | .cvSlept _ lock _::_ => taken lock s = true ∧ s.readyQueue ≠ []
      | _ => False
  | _ => False

/-- The lock whose `isAcquired` the step tests in the loop of `lock_acquire`. -/
def acquireRound (s : State) : Action → Option ℕ
  | .call (.lockAcquire lock) => some lock
  | .run => match s.frames with
      | .acquire lock _::_ => some lock
      | .cvSlept _ lock _::_ => some lock
      | _ => none
  | _ => none

/-- The queue that the step of `wait_queue_destroy` pops a thread off, or frees. -/
def destroyRound (s : State) : Action → Option WaitQueue
  | .run => match s.frames with
      | .destroy queue::_ => some queue
      | .destroyed queue::_ => some queue
      | _ => none
  | _ => none

/-- The step does not show the defect. -/
def Clean : Defect → State → Action → Prop
  | .lose, s, a =>
      takesReady s a → s.tcb.killOnNextRun = false ∧ s.tcb.setcontextCalled = false
  | .forget, _, a => a ≠ .call (.threadCreate false)
  | .discard, s, a => ∀ queue, destroyRound s a = some queue → s.waitQueues queue = []
  | .earlyWait, s, a => ∀ tid, a = .call (.threadWait tid) → waitsFor tid s →
      s.readyQueue ≠ [] ∧ s.tcb.setcontextCalled = false
  | .earlyCvWait, s, a => ∀ cv lock, a = .call (.cvWait cv lock) → ownsLock lock s = true →
      (s.readyQueue ≠ [] ∨ s.waitQueues (.waitOnLock lock) ≠ []) ∧ s.tcb.setcontextCalled = false
  | .recycle, s, a => ∀ stack id rest, a = .call (.threadCreate stack) →
      s.availableThreadIds = id::rest →
      ∀ lock l, s.locks lock = some l → l.isAcquired = true → l.acquiredBy ≠ id
  | .contended, s, a => ∀ lock, acquireRound s a = some lock → taken lock s = true →
      ∀ t, pendingCall (stack s t) ≠ some (.lockDestroy lock)

variable {D : Set Defect} {s s' : State} {a : Action}

theorem doCall_outcome {c : Call} {b : List Frame} (h : Calling D c b s) (hn : ∀ cv lock,
      c = .cvWait cv lock → ownsLock lock s = true ∨ s.locks lock = none)
    (hD : ∀ d, d ∈ D ∨ Clean d s (.call c)) : Outcome D (view s) (doCall c s) := by
  have hl := hD .lose
  cases c with
  | threadId => exact h.return_outcome trivial
  | threadCreate stack =>
    refine threadCreate_call h ((hD .forget).imp_right fun hf => ?_)
      ((hD .recycle).imp_right fun hr id rest ha => hr stack id rest rfl ha)
    cases stack with
    | true => rfl
    | false => exact absurd rfl hf
  | threadYield w => exact threadYield_call h hl
  | threadExit => exact threadExit_call h
  | threadKill tid => exact threadKill_call h
  | threadSleep q =>
    exact threadSleep_call h (hl.imp_right fun hl hq hr => (hl ⟨hq,hr⟩).2)
  | threadWakeup q all => exact threadWakeup_call h
  | threadWait tid =>
    exact threadWait_call h (hl.imp_right fun hl hw hr => (hl ⟨hw,hr⟩).2)
      ((hD .earlyWait).imp_right fun hw => hw tid rfl)
  | lockAcquire lock =>
    exact lockAcquire_call h (hl.imp_right fun hl ha hr => (hl ⟨taken_iff.mpr ha,hr⟩).2)
      fun ha => (hD .contended).imp_right fun hd => hd lock rfl (taken_iff.mpr ha)
  | lockRelease lock => exact lockRelease_call h
  | lockDestroy lock => exact lockDestroy_call h
  | cvDestroy cv => exact waitQueueDestroy_call h rfl (by simp)
  | waitQueueDestroy n =>
    cases n with
    | none => exact .goes .refl fun hr => absurd hr (by simp [doCall])
    | some n => exact waitQueueDestroy_call h rfl (by simp)
  | cvWait cv lock =>
    rcases hn cv lock rfl with ho | ho
    · exact cvWait_call h ho (hl.imp_right fun hl hr => (hl ⟨ho,hr⟩).2)
        ((hD .earlyCvWait).imp_right fun hw => hw cv lock rfl ho)
    · simp only [doCall,cvWait]
      refine withQueue_outcome (withLock_outcome fun hs => ?_)
      simp [ho] at hs
  | cvSignal cv lock => exact cvWakeup_call h (.inl rfl) fun _ => trivial
  | cvBroadcast cv lock => exact cvWakeup_call h (.inr rfl) fun _ => trivial

/-- The threads that are still linked when the queue is freed. -/
theorem discard_moves {queue : WaitQueue} (hD : .discard ∈ D)
    (hl : Discards D queue) : ∀ (l : List Tid) (σ : Sched),
    σ.waits queue = l → Moves D σ { σ with
      waits := fun q => if q = queue then [] else σ.waits q
      history := (l.map fun t => Event.discarded t queue).reverse ++ σ.history }
  | [], σ, h => by
    have hw : (fun q => if q = queue then [] else σ.waits q) = σ.waits := by
      funext q
      by_cases hq : q = queue <;> simp [hq,h]
    rw [hw]
    exact .refl
  | t::l, σ, h => by
    have hm := Move.discard queue t l hD hl h
    have ih := discard_moves hD hl l _ (if_pos rfl : (({ σ with
      waits := fun q => if q = queue then l else σ.waits q }.record (.discarded t queue)).waits queue) = l)
    refine Relation.ReflTransGen.head hm ?_
    have hw : ∀ q, (if q = queue then [] else if q = queue then l else σ.waits q) =
        if q = queue then [] else σ.waits q := fun q => by split <;> rfl
    simpa [Sched.record,hw] using ih

/-- The thread runs `wait_queue_destroy`. -/
structure Destroying (D : Set Defect) (c : Call) (queue : WaitQueue) (b : List Frame) (s : State) : Prop
    extends Inside D s where
  frames : s.frames = .call c::b
  base : OwnBase b
  notMarked : s.tcb.killOnNextRun = false
  destroys : Destroys c queue
  emptied : .discard ∈ D ∨ s.waitQueues queue = []
  settledAt : (view s).SettledAt D s.currentThreadId

namespace Destroying

variable {c : Call} {queue : WaitQueue} {b : List Frame}

theorem pending (h : Destroying D c queue b s) : pendingCall s.frames = some c := by
  simp [h.frames,pendingCall]

/-- What is known of the call does not depend on the queue, but for a lock without waiters. -/
theorem settled_of (h : Destroying D c queue b s) {t : State} (hc : (view t).me.pending = some c)
    (hw : ∀ lock, s.waitQueues (.waitOnLock lock) = [] → t.waitQueues (.waitOnLock lock) = []) :
    (view t).SettledAt D t.currentThreadId := by
  have hd := h.destroys
  refine ⟨fun c' q hc' hs => ?_,fun tid hc' => ?_,fun hD lock hc' => ?_⟩
  · obtain rfl : c = c' := Option.some.inj (hc.symm.trans hc')
    cases c <;> simp_all [SleepsOn,Destroys]
  · obtain rfl : c = .threadKill tid := Option.some.inj (hc.symm.trans hc')
    cases hd
  · obtain rfl : c = .lockDestroy lock := Option.some.inj (hc.symm.trans hc')
    exact hw lock (h.settledAt.unwaited hD lock ((congrArg Slot.pending view_me).trans h.pending))

/-- A thread that waits for a lock has begun to wait inside `lock_destroy`. -/
theorem waits_cases (h : Destroying D c queue b s) : s.waitQueues queue = [] ∨
    .discard ∈ D ∧ Discards D queue := by
  by_cases hw : s.waitQueues queue = []
  · exact .inl hw
  refine .inr ⟨h.emptied.resolve_right hw,?_⟩
  have hd := h.destroys
  cases queue with
  | tWait tid =>
    cases c with
    | waitQueueDestroy n => cases n <;> simp [Destroys] at hd
    | _ => simp [Destroys] at hd
  | waitOnLock lock =>
    have hc : c = .lockDestroy lock := by
      cases c with
      | waitQueueDestroy n => cases n <;> simp [Destroys] at hd
      | _ => simp_all [Destroys]
    have hp := h.pending
    subst hc
    by_contra hn
    exact hw (h.settledAt.unwaited hn lock ((congrArg Slot.pending view_me).trans hp))
  | waitOnCv | created => trivial

theorem loop_outcome (h : Destroying D c queue b s) : Outcome D (view s) (destroyLoop queue s) := by
  refine withQueue_outcome ?_
  cases hq : s.waitQueues queue with
  | nil =>
    simp only [popHeadThreadWait,hq,if_true]
    have hv : view { s with frames := .destroyed queue::s.frames } = view s := view_frames rfl
    refine .goes (by rw [hv]) fun _ => ⟨h.others,.point ?_ fun hk => ?_,?_⟩
    · change Point (.destroyed queue::s.frames)
      rw [h.frames]
      exact .destroyed h.destroys h.base
    · exact absurd (h.notMarked.symm.trans hk) (by simp)
    · rw [hv]
      exact h.settledAt
  | cons t rest =>
    have ht : t ≠ -1 := h.waits_ne _ (by rw [hq]; exact List.mem_cons_self)
    simp only [popHeadThreadWait,hq,ht,if_false]
    have hv : view { (s.setQueue queue rest).record (.discarded t queue) with
        frames := .destroy queue::s.frames } =
        view ((s.setQueue queue rest).record (.discarded t queue)) := view_frames rfl
    refine .goes (.single ?_) fun _ => ⟨h.others,.point ?_ fun hk => ?_,?_⟩
    · rw [hv]
      obtain ⟨hD,hl⟩ := h.waits_cases.resolve_left (by simp [hq])
      exact .discard queue t rest hD hl hq
    · change Point (.destroy queue::s.frames)
      rw [h.frames]
      exact .destroy h.destroys h.base
    · exact absurd (h.notMarked.symm.trans hk) (by simp)
    · refine h.settled_of (by rw [view_me]; exact h.pending) fun lock hw => ?_
      have hne : WaitQueue.waitOnLock lock ≠ queue := by
        rintro rfl
        simp [hq] at hw
      simpa [State.setQueue,State.record,hne] using hw

/-- The threads that are still linked are lost with the queue. -/
theorem freed (h : Destroying D c queue b s) : Moves D (view s) (view (freeWaitQueue queue s)) ∧
    Destroying D c queue b (freeWaitQueue queue s) := by
  have hm : Moves D (view s) (view (freeWaitQueue queue s)) := by
    rcases h.waits_cases with hw | ⟨hD,hl⟩
    · have hv : view (freeWaitQueue queue s) = view s := by
        refine view_congr (fun t => rfl) rfl rfl rfl ?_ rfl (by simp [freeWaitQueue,hw])
        funext q
        by_cases hq : q = queue <;> simp [freeWaitQueue,State.setQueue,hq,hw]
      rw [hv]
    · exact discard_moves hD hl (s.waitQueues queue) (view s) rfl
  refine ⟨hm,⟨Moves.sound hm h.toSound,h.others⟩,h.frames,h.base,h.notMarked,h.destroys,
    .inr (if_pos rfl),?_⟩
  refine h.settled_of (by rw [view_me]; exact h.pending) fun lock hw => ?_
  by_cases hq : WaitQueue.waitOnLock lock = queue <;> simp [freeWaitQueue,State.setQueue,hq,hw]

theorem end_outcome (h : Destroying D c queue b s) : Outcome D (view s) (destroyEnd queue s) := by
  refine withQueue_outcome ?_
  obtain ⟨hm,hc⟩ := h.freed
  refine Outcome.after hm ?_
  have hw : (freeWaitQueue queue s).waitQueues queue = [] := if_pos rfl
  generalize freeWaitQueue queue s = t at hc hw
  have plain : PlainReturn D (view t) c 0 → Outcome D (view t) (return_ 0 t) := fun hp => by
    rw [return_call 0 hc.frames]
    exact ret_outcome hc.toInside hc.base hc.pending hc.notMarked hp
  have hd := hc.destroys
  cases c with
  | lockDestroy lock =>
    obtain rfl : queue = .waitOnLock lock := hd
    change Outcome D (view t) (return_ 0 (t.setLock lock none))
    rw [return_call (s := t.setLock lock none) 0 hc.frames]
    refine .goes (.single ?_) fun _ =>
      ⟨hc.others,hc.base.here rfl hc.notMarked,settledAt_of_pending_none hc.base.pendingCall⟩
    have hmv : Move D (view t) _ := .free lock 0 t.interrupts (by rw [view_me]; exact hc.notMarked)
      (by rw [view_me]; exact hc.pending) hw
    exact view_ret (s := t.setLock lock none) _ hc.base.pendingCall ▸ hmv
  | cvDestroy cv =>
    obtain rfl : queue = .waitOnCv cv := hd
    exact plain trivial
  | waitQueueDestroy n =>
    cases n with
    | none => cases hd
    | some n =>
      obtain rfl : .created n = queue := Option.some.inj hd
      exact plain trivial
  | _ => cases hd

end Destroying

/-- The running thread goes on inside the package. -/
theorem resume_outcome (hs : Sound D (view s)) (hc : Control D s)
    (hD : ∀ d, d ∈ D ∨ Clean d s .run) (hst : resume s = some s') : Outcome D (view s) s' := by
  have hin : Inside D s := ⟨hs,hc.others⟩
  have plain : ∀ {f : List Frame} {e : Bool}, pendingCall f = none → pendingCall s.frames = none →
      (s.tcb.killOnNextRun = true → Unchecked f) → Point f →
      Outcome D (view s) { s with interrupts := e, frames := f } := by
    intro f e hf hp hk hpt
    have hv : view { s with interrupts := e, frames := f } = view s :=
      view_frames (s := { s with interrupts := e }) (hf.trans hp.symm)
    exact .goes (by rw [hv]) fun _ => ⟨hc.others,.point hpt hk,settledAt_of_pending_none hf⟩
  have destroying : ∀ {c : Call} {queue : WaitQueue} {b : List Frame}, Destroys c queue → OwnBase b →
      pendingCall s.frames = some c → destroyRound s .run = some queue → s.tcb.killOnNextRun = false →
      view { s with frames := .call c::b } = view s ∧
        Destroying D c queue b { s with frames := .call c::b } := by
    intro c queue b hd hb hp hr hk
    have hv : view { s with frames := .call c::b } = view s := view_frames hp.symm
    exact ⟨hv,⟨hv ▸ hs,hc.others⟩,rfl,hb,hk,hd,(hD .discard).imp_right fun h => h queue hr,hv ▸ hc.settled⟩
  cases hc.here with
  | entry hf _ =>
    simp only [resume,hf] at hst
    obtain rfl := Option.some.inj hst
    exact plain rfl (by simp [hf,pendingCall]) (fun _ => .inl rfl) .responsibilities
  | point hp hk =>
    generalize hf : s.frames = k at hp
    have hk' : ¬ Unchecked k → s.tcb.killOnNextRun = false := by
      intro hn
      by_contra hc
      exact hn (hf ▸ hk (by simpa using hc))
    cases hp with
    | own hb => cases hb <;> simp [resume,hf] at hst
    | responsibilities =>
      simp only [resume,hf] at hst
      obtain rfl := Option.some.inj hst
      have hv : view { freeTCBStacks s with frames := [.stubKillCheck] } = view s :=
        (view_frames (s := freeTCBStacks s) (by simp [freeTCBStacks,hf,pendingCall])).trans
          view_freeTCBStacks
      exact .goes (by rw [hv]) fun _ => ⟨hc.others.freeTCBStacks,.point .killCheck fun _ => .inr rfl,
        settledAt_of_pending_none rfl⟩
    | killCheck =>
      simp only [resume,hf] at hst
      split at hst
      · obtain rfl := Option.some.inj hst
        exact threadExit_outcome hin ‹_›
      · obtain rfl := Option.some.inj hst
        exact plain rfl (by simp [hf,pendingCall]) (fun hm => absurd hm ‹_›) (.own .thread)
    | stubReturn =>
      simp only [resume,hf] at hst
      obtain rfl := Option.some.inj hst
      exact threadExit_outcome hin (hk' (by simp [Unchecked]))
    | killed tid hb =>
      rename_i b
      simp only [resume,hf] at hst
      obtain rfl := Option.some.inj hst
      have hv : view { s with frames := .call (.threadKill tid)::b } = view s :=
        view_frames (by simp [hf,pendingCall])
      rw [return_call tid rfl,← hv]
      exact ret_outcome (s := { s with frames := .call (.threadKill tid)::b }) ⟨hv ▸ hs,hc.others⟩ hb rfl
        (hk' (by simp [Unchecked])) fun _ => hv ▸ hc.settled
    | destroy hd hb =>
      rename_i b c queue
      simp only [resume,hf] at hst
      obtain rfl := Option.some.inj hst
      obtain ⟨hv,hd⟩ := destroying hd hb (by simp [hf,pendingCall]) (by simp only [destroyRound,hf])
        (hk' (by simp [Unchecked]))
      exact hv ▸ hd.loop_outcome
    | destroyed hd hb =>
      rename_i b c queue
      simp only [resume,hf] at hst
      obtain rfl := Option.some.inj hst
      obtain ⟨hv,hd⟩ := destroying hd hb (by simp [hf,pendingCall]) (by simp only [destroyRound,hf])
        (hk' (by simp [Unchecked]))
      exact hv ▸ hd.end_outcome
  | midway hm hi hk =>
    have hl := hD .lose
    have kept : ∀ {lock : ℕ}, acquireRound s .run = some lock → (view s).Acquired lock →
        (view s).Kept D lock := fun hr ha =>
      (hD .contended).imp_right fun hd => hd _ hr (taken_iff.mpr ha)
    generalize hf : s.frames = k at hm
    cases hm with
    | lockAcquire l e hb =>
      rename_i b
      simp only [resume,hf] at hst
      obtain rfl := Option.some.inj hst
      have hv : view { s with frames := .call (.lockAcquire l)::b } = view s :=
        view_frames (by simp [hf,pendingCall])
      rw [← hv]
      exact acquireLoop_outcome (c := .lockAcquire l) ⟨hv ▸ hs,hc.others⟩ (.lockAcquire hb) hi hk
        (hl.imp_right fun hl ha hr => (hl (by simp only [takesReady,hf]; exact ⟨taken_iff.mpr ha,hr⟩)).2)
        (hv.symm ▸ kept (by simp only [acquireRound,hf])) (hv ▸ hc.settled)
    | cvSlept cv l e hb =>
      rename_i b
      simp only [resume,hf] at hst
      obtain rfl := Option.some.inj hst
      have hv : view { s with interrupts := false, frames := .cvReacquired cv l e::.call (.cvWait cv l)::b
          } = view s := view_frames (s := { s with interrupts := false }) (by simp [hf,pendingCall])
      rw [← hv]
      exact acquireLoop_outcome (s := { s with
          interrupts := false, frames := .cvReacquired cv l e::.call (.cvWait cv l)::b })
        (c := .cvWait cv l) ⟨hv ▸ hs,hc.others⟩ (.cvWait cv e hb) rfl hk
        (hl.imp_right fun hl ha hr => (hl (by simp only [takesReady,hf]; exact ⟨taken_iff.mpr ha,hr⟩)).2)
        (hv.symm ▸ kept (by simp only [acquireRound,hf])) (hv ▸ hc.settled)
    | cvReacquired cv l e e' hb =>
      rename_i b
      simp only [resume,hf] at hst
      obtain rfl := Option.some.inj hst
      have hv : view { s with frames := .cvReacquired cv l e'::.call (.cvWait cv l)::b } = view s :=
        view_frames (by simp [hf,pendingCall])
      rw [← hv]
      exact acquireLoop_outcome (c := .cvWait cv l) ⟨hv ▸ hs,hc.others⟩ (.cvWait cv e' hb) hi hk
        (hl.imp_right fun hl ha hr => (hl (by simp only [takesReady,hf]; exact ⟨taken_iff.mpr ha,hr⟩)).2)
        (hv.symm ▸ kept (by simp only [acquireRound,hf])) (hv ▸ hc.settled)
  | yielded n o tk e k hf hy _ hset =>
    simp only [resume,hf] at hst
    obtain rfl := Option.some.inj hst
    have hv : view (freeTCBStacks { s with frames := k }) = view s :=
      view_freeTCBStacks.trans (view_frames (by simp [hf,pendingCall]))
    have hin' : Inside D (freeTCBStacks { s with frames := k }) :=
      ⟨hv ▸ hs,Others.freeTCBStacks (s := { s with frames := k }) hc.others⟩
    obtain ⟨b,hb⟩ := freeTCBStacks_TCBs { s with frames := k } s.currentThreadId
    have hb' : (freeTCBStacks { s with frames := k }).tcb = { s.tcb with stackToFree := b } := hb
    simp only [afterGetcontext]
    rw [← hv]
    split
    · exact threadExit_outcome hin' ‹_›
    · rename_i hk
      have hset' : (freeTCBStacks { s with frames := k }).tcb.setcontextCalled = true := by
        rw [hb']; exact hset
      rw [if_neg (by simp [hset'])]
      exact resumed_outcome (s := freeTCBStacks { s with frames := k }) _ hin' hy (by simpa using hk)
        hset' (hv ▸ hc.settled)

/-- The timer's `thread_yield(THREAD_ANY)`. -/
theorem timer_outcome (hs : Sound D (view s)) (hc : Control D s) (hi : s.interrupts = true)
    (hD : ∀ d, d ∈ D ∨ Clean d s .timer) : Outcome D (view s)
      (threadYield threadAny { s with interrupts := false, frames := .handler::s.frames }) := by
  have hv : view { s with interrupts := false, frames := .handler::s.frames } = view s :=
    view_frames (s := { s with interrupts := false }) rfl
  have hsettled : (view { s with interrupts := false, frames := .handler::s.frames }).SettledAt D
      s.currentThreadId := hv ▸ hc.settled
  cases hc.here with
  | entry _ hi' => simp [hi] at hi'
  | midway _ hi' => simp [hi] at hi'
  | yielded _ _ _ _ _ _ _ hi' => simp [hi] at hi'
  | point hp hk =>
    rw [← hv]
    refine threadYield_outcome ⟨⟨hv ▸ hs,hc.others⟩,.timer hp,fun hk' => ⟨_,rfl,hk hk'⟩,?_⟩
      (hD .lose) hsettled
    intro c hcall
    have hcall' : pendingCall s.frames = some c := hcall
    generalize hf : s.frames = k at hp
    cases hp with
    | own hb => simp [hf,hb.pendingCall] at hcall'
    | responsibilities | killCheck | stubReturn => simp [hf,pendingCall] at hcall'
    | killed tid hb =>
      obtain rfl : Call.threadKill tid = c := by simpa [hf,pendingCall] using hcall'
      rw [← hf]
      exact hsettled
    | destroy hd hb | destroyed hd hb =>
      rename_i c' queue
      obtain rfl : c' = c := by simpa [hf,pendingCall] using hcall'
      cases c' with
      | lockDestroy lock =>
        exact fun hD => hc.settled.unwaited hD lock ((congrArg Slot.pending view_me).trans hcall')
      | cvDestroy | waitQueueDestroy => trivial
      | _ => cases hd

theorem call_outcome {c : Call} {k : List Frame} (hs : Sound D (view s)) (hc : Control D s)
    (hf : s.frames = .own::k) (hD : ∀ d, d ∈ D ∨ Clean d s (.call c)) : Outcome D (view s)
      (doCall c { s.record (.call s.self c s.interrupts) with frames := .call c::.own::k }) := by
  obtain ⟨hb,hk⟩ : OwnBase (.own::k) ∧ s.tcb.killOnNextRun = false := by
    cases hc.here with
    | entry hf' => simp [hf] at hf'
    | midway hm => rw [hf] at hm; cases hm
    | yielded _ _ _ _ _ hf' => simp [hf] at hf'
    | point hp hk =>
      rw [hf] at hp hk
      refine ⟨by cases hp; assumption,?_⟩
      by_contra hm
      have := hk (by simpa using hm)
      simp [Unchecked] at this
  have hp : (view s).me.pending = none := by
    rw [view_me]; simpa [slot,hf] using hb.pendingCall
  have hk' : (view s).me.killOnNextRun = false := by rw [view_me]; exact hk
  have hq : ∀ lock, s.tcb.waitQueue ≠ some (.waitOnLock lock) := by
    intro lock hq
    have hq' : (view s).me.waitQueue = some (.waitOnLock lock) := by rw [view_me]; exact hq
    obtain ⟨_,c,hc,_⟩ := hs.request lock hq'
    simp [hp] at hc
  have hm : Move D (view s) (view { s.record (.call s.self c s.interrupts) with
      frames := .call c::.own::k }) := by
    rw [view_call]
    exact .call c s.interrupts hk' hp
  have hcalling : Calling D c (.own::k) { s.record (.call s.self c s.interrupts) with
      frames := .call c::.own::k } := ⟨⟨hm.sound hs,hc.others⟩,rfl,hb,hk,hq⟩
  by_cases hn : ∀ cv lock, c = .cvWait cv lock → ownsLock lock s = true ∨ s.locks lock = none
  · refine (doCall_outcome hcalling hn fun d => (hD d).imp_right fun hd => ?_).after (.single hm)
    cases d with
    | discard => exact fun _ hr => by cases hr
    | lose => cases c <;> exact hd
    | contended =>
      intro lock hr ht t
      by_cases htc : t = s.currentThreadId
      · have hl : c = .lockAcquire lock := by cases c <;> simp_all [acquireRound]
        simp [stack,htc,pendingCall,State.record,hl]
      · have hd' := hd lock (by cases c <;> simp_all [acquireRound]) ht t
        simpa [stack,htc,State.record] using hd'
    | _ => exact hd
  · -- `cv_wait` of a thread that does not own the lock is one move
    simp only [not_forall] at hn
    obtain ⟨cv,lock,rfl,hn⟩ := hn
    rw [not_or] at hn
    obtain ⟨l,hl⟩ := Option.ne_none_iff_exists'.mp hn.2
    have ho : ownsLock lock { s.record (.call s.self (.cvWait cv lock) s.interrupts) with
      frames := .call (.cvWait cv lock)::.own::k } = false := by
      have hn' : ownsLock lock s = false := by simpa using hn.1
      exact hn'
    have hsome : (State.locks { s.record (.call s.self (.cvWait cv lock) s.interrupts) with
      frames := .call (.cvWait cv lock)::.own::k } lock).isSome = true := by
      simp [State.record,hl]
    by_cases hfreed : s.freed (.waitOnCv cv) = true
    · have hu : doCall (.cvWait cv lock) { s.record (.call s.self (.cvWait cv lock) s.interrupts) with
          frames := .call (.cvWait cv lock)::.own::k } =
          { s.record (.call s.self (.cvWait cv lock) s.interrupts) with
            frames := .call (.cvWait cv lock)::.own::k, status := .dangling } := if_pos hfreed
      rw [hu]
      exact .goes (.single hm) fun hr => absurd hr (by simp)
    have hnot : (s.record (.call s.self (.cvWait cv lock) s.interrupts)).freed (.waitOnCv cv) = false := by
      simpa [State.record] using hfreed
    simp only [doCall,cvWait,withQueue,hnot,withLock,hsome,if_true,ho]
    rw [if_neg (by simp),if_neg (by simp),return_call 0 rfl]
    refine .goes (.single ?_) fun _ => ⟨hc.others,hb.here rfl hk,settledAt_of_pending_none hb.pendingCall⟩
    have hv : view { s with frames := .own::k } = view s := view_frames (by rw [hf])
    have hmv : Move D (view s) _ := .refuse cv lock l 0 s.interrupts hk' hp hl
      (fun h => hn.1 (ownsLock_iff.mpr h))
    have he : view { (State.record (.ret s.self (.cvWait cv lock) 0 s.interrupts)
        (s.record (.call s.self (.cvWait cv lock) s.interrupts))) with frames := .own::k } =
        ((view s).record (.call (view s).self (.cvWait cv lock) s.interrupts)).record
          (.ret (view s).self (.cvWait cv lock) 0 s.interrupts) := by
      rw [← hv]; rfl
    exact he ▸ hmv

/-- Every step is a sequence of moves of a scheduler that shows only the defects the step is
not clean of, and leads to a control point again. -/
theorem step_outcome (hs : Sound D (view s)) (hc : Control D s) (hD : ∀ d, d ∈ D ∨ Clean d s a)
    (hst : step s a = some s') : Outcome D (view s) s' := by
  have unmarked : s.frames.head? = some .own → s.tcb.killOnNextRun = false := by
    intro hf
    by_contra hm
    cases hc.here with
    | entry hf' => simp [hf'] at hf
    | midway _ _ hk => exact hm hk
    | yielded _ _ _ _ _ hf' => simp [hf'] at hf
    | point _ hk =>
      rcases hk (by simpa using hm) with hk | hk <;> simp [hk] at hf
  have own : ∀ {e : Bool} {f : List Frame}, s.frames.head? = some .own →
      pendingCall f = pendingCall s.frames → pendingCall f = none → Point f →
      Outcome D (view s) { s.record (.own s.self) with interrupts := e, frames := f } := by
    intro e f hf hp hn hpt
    have hk := unmarked hf
    have hv : view { s.record (.own s.self) with interrupts := e, frames := f } =
        (view s).record (.own (view s).self) :=
      view_frames (s := { s.record (.own s.self) with interrupts := e }) hp
    refine .goes (.single ?_) fun _ => ⟨hc.others,.point hpt fun hk' => ?_,settledAt_of_pending_none hn⟩
    · rw [hv]
      exact .own (by rw [view_me]; exact hk)
    · exact absurd (hk.symm.trans hk') (by simp)
  have base : s.frames.head? = some .own → OwnBase s.frames := by
    intro hf
    cases hc.here with
    | entry hf' => simp [hf'] at hf
    | midway hm =>
      generalize s.frames = k at hm hf
      cases hm <;> simp at hf
    | yielded _ _ _ _ _ hf' => simp [hf'] at hf
    | point hp =>
      generalize s.frames = k at hp hf
      cases hp with
      | own hb => exact hb
      | _ => simp at hf
  simp only [step] at hst
  split at hst
  · cases hst
  cases a with
  | run => exact resume_outcome hs hc hD hst
  | timer =>
    simp only at hst
    split at hst
    · rename_i hi
      obtain rfl := Option.some.inj hst
      exact timer_outcome hs hc hi hD
    · cases hst
  | call c =>
    simp only at hst
    split at hst
    · rename_i k hf
      obtain rfl := Option.some.inj hst
      exact call_outcome hs hc hf hD
    · cases hst
  | compute =>
    simp only at hst
    split at hst
    · rename_i hf
      obtain rfl := Option.some.inj hst
      exact own hf rfl (base hf).pendingCall (.own (base hf))
    · cases hst
  | interruptsSet e =>
    simp only at hst
    split at hst
    · rename_i hf
      obtain rfl := Option.some.inj hst
      exact own hf rfl (base hf).pendingCall (.own (base hf))
    · cases hst
  | finish =>
    simp only at hst
    split at hst
    · rename_i k hf
      obtain rfl := Option.some.inj hst
      have hb : OwnBase s.frames := base (by simp [hf])
      rw [hf] at hb
      cases hb
      exact own (by simp [hf]) (by simp [hf,pendingCall]) rfl .stubReturn
    · cases hst

/-! ### Whole runs -/

theorem mem_available {t : ℤ} : t ∈ initialThreadIds ↔ 1 ≤ t ∧ t < 1024 := by
  simp only [initialThreadIds,List.mem_map,List.mem_range]
  constructor
  · rintro ⟨n,hn,rfl⟩
    omega
  · rintro ⟨h₁,h₂⟩
    exact ⟨(t-1).toNat,by omega,by omega⟩

theorem threadInit_available : (view threadInit).place .available = initialThreadIds := by
  simp only [Sched.place,places,view,threadInit]

theorem initialThreadIds_nodup : initialThreadIds.Nodup := by
  refine List.Nodup.map (fun m n h => ?_) List.nodup_range
  have h' : (m : ℤ)+1 = n+1 := h
  omega

theorem threadInit_place {p : Place} {t : Tid} (h : t ∈ (view threadInit).place p) :
    p = .running ∧ t = 0 ∨ p = .available ∧ 1 ≤ t ∧ t < threadMaxThreads := by
  cases p with
  | running => exact .inl ⟨rfl,by simpa [Sched.place,places,view,threadInit] using h⟩
  | available =>
    rw [threadInit_available] at h
    exact .inr ⟨rfl,mem_available.mp h⟩
  | ready | waiting => simp [Sched.place,places,view,threadInit] at h

theorem threadInit_inv : Inv (view threadInit) where
  exclusive := by
    constructor
    · rintro (_ | _ | _ | _)
      · simp [Sched.place,places]
      · rw [threadInit_available]
        exact initialThreadIds_nodup
      · exact List.nodup_nil
      · exact List.nodup_nil
    · intro p q t hp hq
      rcases threadInit_place hp with ⟨rfl,rfl⟩ | ⟨rfl,h₁,_⟩ <;>
        rcases threadInit_place hq with ⟨rfl,h₀⟩ | ⟨rfl,h₂,_⟩
      · rfl
      · exact absurd h₂ (by decide)
      · rw [h₀] at h₁; exact absurd h₁ (by decide)
      · rfl
  range p t ht := by
    rcases threadInit_place ht with ⟨_,rfl⟩ | ⟨_,h₁,h₂⟩
    · decide
    · exact ⟨le_trans (by decide) h₁,h₂⟩
  free t ht := by
    have hp : t ∈ (view threadInit).place .available := ht
    rw [threadInit_available] at hp
    obtain ⟨h₁,_⟩ := mem_available.mp hp
    have h₀ : t ≠ 0 := by rintro rfl; exact absurd h₁ (by decide)
    simp [view,slot,threadInit,h₀]
  ready t ht := by simp [view,threadInit] at ht
  waiting q t ht := by simp [view,threadInit] at ht
  running t := by
    by_cases h₀ : t = 0 <;> simp [view,slot,threadInit,h₀]
  unmarked t _ := rfl
  idle t _ := rfl

theorem threadInit_sound (D : Set Defect) : Sound D (view threadInit) where
  toInv := threadInit_inv
  request lock h := by simp [Sched.me,view,slot,threadInit] at h
  blocked lock h := by simp [view,threadInit] at h
  past e he := by simp [view,threadInit] at he
  counted t := rfl
  matched t c hc := by
    by_cases ht : t = 0 <;> simp [view,slot,stack,threadInit,ht,pendingCall] at hc
  settled t ht := .of_none (by
    have ht' : t ≠ 0 := ht
    simp [view,slot,stack,threadInit,ht',pendingCall])

theorem threadInit_control (D : Set Defect) : Control D threadInit where
  others t ht hr := by
    have ht' : t ≠ 0 := ht
    simp [threadInit,ht'] at hr
  here := .point (.own .main) fun h => by simp [State.tcb,threadInit] at h
  settled := settledAt_of_pending_none rfl

theorem threadInit_complete : Complete (view threadInit) where
  placed t h₀ h₁ := by
    by_cases ht : t = 0
    · exact ⟨.running,by simp [Sched.place,places,view,threadInit,ht]⟩
    · refine ⟨.available,?_⟩
      rw [threadInit_available]
      exact mem_available.mpr ⟨lt_of_le_of_ne h₀ (Ne.symm ht),h₁⟩

/-- A scheduler state that accounts for the state of a run: the one it shows, or the one in
which the last thread ended. -/
inductive Shown (σ : Sched) (s : State) : Prop
  | view : σ = view s → Shown σ s
  | halted (marked : Bool) : s.status = .exited → s.history = .exited σ.self marked :: σ.history →
      σ.me.killOnNextRun = marked → Shown σ s

theorem running_of_step {s' : State} {a : Action} (h : step s a = some s') : s.status = .running := by
  by_contra hn
  simp [step,hn] at h

/-- The rule for runs: what holds at the start and is kept by every move of the scheduler with
the defects `D` holds of the scheduler shown by every state of a run that is clean of the
other defects. -/
theorem shown_of_reachable {ok : State → Action → Prop}
    (hok : ∀ s a, Reachable ok s → s.status = .running → ok s a → ∀ d, d ∈ D ∨ Clean d s a) {P : Sched → Prop} (hinit : P (view threadInit))
    (hmove : ∀ σ σ', Sound D σ → P σ → Move D σ σ' → P σ') (h : Reachable ok s) :
    ∃ σ, Shown σ s ∧ Sound D σ ∧ P σ ∧ (s.status = .running → Control D s) := by
  have hmoves : ∀ {σ σ'}, Moves D σ σ' → Sound D σ → P σ → P σ' := by
    intro σ σ' hm hs hp
    induction hm with
    | refl => exact hp
    | tail hms hm ih => exact hmove _ _ (Moves.sound hms hs) ih hm
  have hinv : ∃ σ, Shown σ s ∧ Sound D σ ∧ P σ ∧
      (s.status = .running → σ = view s ∧ Control D s) := by
    induction h with
    | init => exact ⟨_,.view rfl,threadInit_sound D,hinit,fun _ => ⟨rfl,threadInit_control D⟩⟩
    | step a hr ha hst ih =>
      rename_i t t'
      obtain ⟨σ,_,hs,hp,hc⟩ := ih
      have hrun := running_of_step hst
      obtain ⟨rfl,hcontrol⟩ := hc hrun
      cases step_outcome hs hcontrol (hok t a hr hrun ha) hst with
      | goes hm hc' => exact ⟨_,.view rfl,Moves.sound hm hs,hmoves hm hs hp,fun hr => ⟨rfl,hc' hr⟩⟩
      | halts σ' marked hm hst' hh hk =>
        refine ⟨σ',.halted marked hst' hh hk,Moves.sound hm hs,hmoves hm hs hp,fun hr => ?_⟩
        exact absurd (hr.symm.trans hst') (by simp)
  obtain ⟨σ,hsh,hs,hp,hc⟩ := hinv
  exact ⟨σ,hsh,hs,hp,fun hr => (hc hr).2⟩

/-- In a run the process ends only by `exit`: while it runs, the shown scheduler is the view. -/
theorem Shown.eq_view {σ : Sched} (h : Shown σ s) (hr : s.status = .running) :
    σ = SchedulerView.view s := by
  cases h with
  | view h => exact h
  | halted _ hs => exact absurd (hr.symm.trans hs) (by simp)

/-- What holds in every running state of every run, whatever its defects. -/
theorem sound_control_of_reachable {ok : State → Action → Prop} (h : Reachable ok s)
    (hr : s.status = .running) : Sound Set.univ (view s) ∧ Control Set.univ s := by
  obtain ⟨σ,hs,hsound,-,hc⟩ := shown_of_reachable (D := Set.univ) (P := fun _ => True)
    (fun _ _ _ _ _ d => .inl (Set.mem_univ d)) trivial (fun _ _ _ _ _ => trivial) h
  obtain rfl := hs.eq_view hr
  exact ⟨hsound,hc hr⟩

end SchedulerRun
end OsLabs

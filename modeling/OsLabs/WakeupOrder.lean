import OsLabs.DestroyedQueues
import OsLabs.LockWaiters
import OsLabs.WaitLists

/-!
# The order in which threads wake up

Threads are added at the end of a wait queue and leave it at the front, so over a whole run they are
made ready in the order in which they were pushed, each once for each push. `wait_queue_destroy`
also takes threads off a queue, or frees it with the threads in it, and makes nobody ready; a run
keeps the order exactly as long as it meets no waiting thread.
-/

namespace OsLabs
namespace WakeupOrder

open ThreadModel Scheduler SchedulerView SchedulerRefinement SchedulerRun Transition

/-! ### What a history says about a queue -/

/-- The instances that the events of a history name, oldest first. -/
def collect (f : Event → List Inst) : List Event → List Inst
  | [] => []
  | e::h => collect f h ++ f e

def pushes (queue : WaitQueue) : Event → List Inst
  | .slept i q => if q = queue then [i] else []
  | _ => []

def wakes (queue : WaitQueue) : Event → List Inst
  | .woken i q _ => if q = queue then [i] else []
  | _ => []

/-- The threads that were pushed on a queue, in this order. -/
abbrev pushed (queue : WaitQueue) : List Event → List Inst := collect (pushes queue)

/-- The threads of a queue that were made ready, in this order. -/
abbrev woken (queue : WaitQueue) : List Event → List Inst := collect (wakes queue)

/-- A thread that `wait_queue_destroy` takes off its queue. -/
def drops (queue : WaitQueue) (h : List Event) : Event → List Inst
  | .discarded tid q => if q = queue then [ownerAt tid h] else []
  | _ => []

/-- The threads that left a queue, in this order. -/
def departed (queue : WaitQueue) : List Event → List Inst
  | [] => []
  | e::h => departed queue h ++ (wakes queue e ++ drops queue h e)

/-- The event is about no wait queue. -/
def Aside (e : Event) : Prop :=
  ∀ queue h, pushes queue e = [] ∧ wakes queue e = [] ∧ drops queue h e = []

variable {queue : WaitQueue} {n h : List Event}

theorem collect_append {f : Event → List Inst} (hn : ∀ e ∈ n, f e = []) :
    collect f (n ++ h) = collect f h := by
  induction n with
  | nil => rfl
  | cons e n ih =>
    rw [List.cons_append,collect,hn e (by simp),List.append_nil]
    exact ih fun e he => hn e (by simp [he])

theorem pushed_aside (hn : ∀ e ∈ n, Aside e) : pushed queue (n ++ h) = pushed queue h :=
  collect_append fun e he => (hn e he queue h).1

theorem departed_aside (hn : ∀ e ∈ n, Aside e) : departed queue (n ++ h) = departed queue h := by
  induction n with
  | nil => rfl
  | cons e n ih =>
    obtain ⟨-,hw,hd⟩ := hn e (by simp) queue (n ++ h)
    rw [List.cons_append,departed,hw,hd,List.append_nil,List.append_nil]
    exact ih fun e he => hn e (by simp [he])

/-- The events of a wake-up, newest first. -/
theorem pushed_wake (i : Tid → Inst) (q : WaitQueue) (w : Waker) (l : List Tid) :
    pushed queue ((l.map fun t => Event.woken (i t) q w).reverse ++ h) = pushed queue h := by
  induction l generalizing h with
  | nil => rfl
  | cons t l ih =>
    rw [List.map_cons,List.reverse_cons,List.append_assoc,List.singleton_append,ih,pushed,collect]
    exact List.append_nil _

theorem departed_wake (i : Tid → Inst) (q : WaitQueue) (w : Waker) (l : List Tid) :
    departed queue ((l.map fun t => Event.woken (i t) q w).reverse ++ h) =
      departed queue h ++ if q = queue then l.map i else [] := by
  induction l generalizing h with
  | nil => split <;> exact (List.append_nil _).symm
  | cons t l ih =>
    rw [List.map_cons,List.reverse_cons,List.append_assoc,List.singleton_append,ih,departed,
      List.append_assoc]
    by_cases hq : q = queue <;> simp [wakes,drops,hq]

/-- Where nobody is discarded, threads leave a queue by being made ready. -/
theorem departed_eq (hd : ∀ t, .discarded t queue ∉ h) : departed queue h = woken queue h := by
  induction h with
  | nil => rfl
  | cons e h ih =>
    have he : drops queue h e = [] := by
      cases e with
      | discarded t q =>
        refine if_neg ?_
        rintro rfl
        exact hd t List.mem_cons_self
      | _ => rfl
    rw [departed,woken,collect,he,List.append_nil,ih fun t hm => hd t (List.mem_cons_of_mem _ hm)]

/-! ### Runs -/

/-- The threads that were pushed on a queue have left it, or wait in it, in this order. -/
def InOrder (σ : Sched) : Prop :=
  ∀ queue, pushed queue σ.history = departed queue σ.history ++ (σ.waits queue).map σ.inst

/-- Instances change by creation only. -/
theorem inst_eq {D : Set Defect} {σ σ' : Sched} (hm : Move D σ σ') (hi : Inv σ) {n : List Event}
    (hh : σ'.history = n ++ σ.history) {t : Tid} (hc : ∀ e ∈ n, isCreated t e = false) :
    σ'.inst t = σ.inst t := by
  obtain ⟨k,he⟩ := hm.effect hi
  obtain rfl : n = k := List.append_cancel_right (hh.symm.trans he.history)
  have hz : n.countP (isCreated t) = 0 := List.countP_eq_zero.mpr fun e hm => by simp [hc e hm]
  simp [Sched.inst,he.generation,hz]

section Moves

variable {D : Set Defect} {σ σ' : Sched}

/-- What a move pushes, what leaves, and who waits afterwards. -/
theorem inOrder_of (hm : Move D σ σ') (hi : Inv σ) {n : List Event}
    (hh : σ'.history = n ++ σ.history)
    (hc : ∀ queue, ∀ t ∈ σ'.waits queue, ∀ e ∈ n, isCreated t e = false)
    (h : ∀ queue, pushed queue (n ++ σ.history) =
      departed queue (n ++ σ.history) ++ (σ'.waits queue).map σ.inst) : InOrder σ' := by
  intro queue
  have hmap : (σ'.waits queue).map σ'.inst = (σ'.waits queue).map σ.inst :=
    List.map_congr_left fun t ht => inst_eq hm hi hh (hc queue t ht)
  rw [hh,hmap]
  exact h queue

theorem inOrder_aside (hm : Move D σ σ') (hi : Inv σ) (h : InOrder σ) (n : List Event)
    (hh : σ'.history = n ++ σ.history) (hn : ∀ e ∈ n, Aside e) (hw : σ'.waits = σ.waits)
    (hc : ∀ queue, ∀ t ∈ σ.waits queue, ∀ e ∈ n, isCreated t e = false) : InOrder σ' := by
  refine inOrder_of hm hi hh (hw ▸ hc) fun queue => ?_
  rw [pushed_aside hn,departed_aside hn,hw]
  exact h queue

theorem move_inOrder (hm : Move D σ σ') (hs : Sound D σ) (h : InOrder σ) : InOrder σ' := by
  have hm' := hm
  cases hm with
  | call | own | passed | unlock | ret | free | kill =>
    exact inOrder_aside hm' hs.toInv h [_] rfl (by simp [Aside,pushes,wakes,drops]) rfl
      (by simp [isCreated])
  | refuse | acquire =>
    exact inOrder_aside hm' hs.toInv h [_,_] rfl (by simp [Aside,pushes,wakes,drops]) rfl
      (by simp [isCreated])
  | request | resume | lose | forget =>
    exact inOrder_aside hm' hs.toInv h [] rfl (by simp) rfl (by simp)
  | create id rest _ ha =>
    refine inOrder_aside hm' hs.toInv h [_] rfl (by simp [Aside,pushes,wakes,drops]) rfl ?_
    intro queue t ht e he
    obtain rfl := List.mem_singleton.mp he
    have hne : id ≠ t := by
      rintro rfl
      have hp := hs.exclusive.unique (i := .available) (j := .waiting queue)
        (by simp [Sched.place,places,ha]) ht
      cases hp
    simpa [isCreated] using hne
  | wake waker q l rest hq _ =>
    refine inOrder_of hm' hs.toInv (n := (l.map fun t => Event.woken (σ.inst t) q waker).reverse) rfl
      (fun _ t _ e he => ?_) fun queue => ?_
    · simp only [List.mem_reverse,List.mem_map] at he
      obtain ⟨u,-,rfl⟩ := he
      rfl
    · rw [pushed_wake,departed_wake,h queue]
      by_cases hqq : queue = q
      · subst hqq
        simp [Sched.wake,hq]
      · simp [Sched.wake,hqq,Ne.symm hqq]
  | switch x hx _ _ _ =>
    cases hq : σ.me.waitQueue with
    | none =>
      exact inOrder_aside hm' hs.toInv h [] (by simp [Sched.switch,hq]) (by simp)
        (by simp [Sched.switch,hq]) (by simp)
    | some q =>
      refine inOrder_of hm' hs.toInv (n := [.slept σ.self q]) (by simp [Sched.switch,hq])
        (by simp [isCreated]) fun queue => ?_
      have hp : pushed queue ([.slept σ.self q] ++ σ.history) =
          pushed queue σ.history ++ if q = queue then [σ.self] else [] := rfl
      have hd : departed queue ([.slept σ.self q] ++ σ.history) = departed queue σ.history := by
        simp [departed,wakes,drops]
      rw [hp,hd,h queue]
      by_cases hqq : queue = q
      · subst hqq
        simp [Sched.switch,hq,Sched.self]
      · simp [Sched.switch,hq,hqq,Ne.symm hqq]
  | exit marked next rest _ hn =>
    let queueOfSelf := WaitQueue.tWait σ.current
    let n := ((σ.waits queueOfSelf).map fun t => Event.woken (σ.inst t) queueOfSelf .threadExit).reverse
    refine inOrder_of hm' hs.toInv (n := n ++ [.exited σ.self marked]) (by simp [Sched.exit,n,queueOfSelf])
      (fun _ t _ e he => ?_) fun queue => ?_
    · simp only [n,List.mem_append,List.mem_reverse,List.mem_map,List.mem_singleton] at he
      rcases he with ⟨u,-,rfl⟩ | rfl <;> rfl
    · have hp : pushed queue ([.exited σ.self marked] ++ σ.history) = pushed queue σ.history :=
        pushed_aside (by simp [Aside,wakes,drops,pushes])
      have hd : departed queue ([.exited σ.self marked] ++ σ.history) = departed queue σ.history :=
        departed_aside (by simp [Aside,wakes,drops,pushes])
      rw [List.append_assoc,pushed_wake,departed_wake,hp,hd,h queue]
      by_cases hqq : queue = queueOfSelf
      · subst hqq
        simp [Sched.exit,queueOfSelf]
      · simp [Sched.exit,hqq,Ne.symm hqq,queueOfSelf]
  | discard q tid rest _ _ hq =>
    refine inOrder_of hm' hs.toInv (n := [.discarded tid q]) rfl (by simp [isCreated]) fun queue => ?_
    have hp : pushed queue ([.discarded tid q] ++ σ.history) = pushed queue σ.history :=
      collect_append (by simp [pushes])
    have hd : departed queue ([.discarded tid q] ++ σ.history) = departed queue σ.history ++
        if q = queue then [σ.inst tid] else [] := by
      simp [departed,wakes,drops,hs.counted]
    rw [hp,hd,h queue]
    by_cases hqq : queue = q
    · subst hqq
      simp [Sched.record,hq]
    · simp [Sched.record,hqq,Ne.symm hqq]

end Moves

/-- In every run, whatever its defects. -/
theorem inOrder_of_reachable {ok : State → Action → Prop} {s : State} (h : Reachable ok s) :
    ∃ σ, Shown σ s ∧ Sound Set.univ σ ∧ InOrder σ := by
  obtain ⟨σ,hs,hsound,ho,-⟩ := shown_of_reachable (D := Set.univ) (P := InOrder)
    (fun _ _ _ _ _ d => .inl (Set.mem_univ d)) (fun _ => rfl)
    (fun _ _ hs ho hm => move_inOrder hm hs ho) h
  exact ⟨σ,hs,hsound,ho⟩

/-- No step of `wait_queue_destroy` meets a waiting thread. -/
abbrev NoDiscard : State → Action → Prop := Clean .discard

theorem no_discarded {s : State} (h : Reachable NoDiscard s) (queue : WaitQueue) :
    ∀ t, .discarded t queue ∉ s.history := by
  intro t
  obtain ⟨σ,hs,-,hn,-⟩ := shown_of_reachable (D := {d | d ≠ .discard})
    (fun _ _ _ _ ha d => (em (d = .discard)).elim (fun hd => .inr (hd ▸ ha)) .inl)
    (P := fun σ => ∀ t, .discarded t queue ∉ σ.history) (by simp [view,threadInit])
    (fun _ _ _ h hm => LockWaiters.Move.not_discarded hm (fun hd => absurd rfl hd) h) h
  cases hs with
  | view hv => subst hv; exact hn t
  | halted _ _ hh _ => rw [hh]; simp [hn t]

/-- The threads pushed on a queue were made ready in the order in which they were pushed, each once
for each push, up to the ones that still wait. -/
structure WokenInOrder (s : State) : Prop where
  order : ∀ queue, woken queue s.history <+: pushed queue s.history
  waiting : s.status = .running → ∀ queue,
    pushed queue s.history = woken queue s.history ++ (s.waitQueues queue).map s.inst

theorem wokenInOrder_of_reachable {s : State} (h : Reachable NoDiscard s) : WokenInOrder s := by
  obtain ⟨σ,hs,-,ho⟩ := inOrder_of_reachable h
  have hn := no_discarded h
  cases hs with
  | view hv =>
    subst hv
    have hw : ∀ queue, pushed queue s.history = woken queue s.history ++ (s.waitQueues queue).map s.inst :=
      fun queue => by rw [← departed_eq (hn queue)]; exact ho queue
    exact ⟨fun queue => ⟨_,(hw queue).symm⟩,fun _ => hw⟩
  | halted marked hst hh _ =>
    refine ⟨fun queue => ?_,fun hr => absurd (hr.symm.trans hst) (by simp)⟩
    have hn' : ∀ t, .discarded t queue ∉ σ.history := fun t hm => hn queue t (by simp [hh,hm])
    have hp : pushed queue s.history = pushed queue σ.history := by
      rw [hh]; exact List.append_nil _
    have hw : woken queue s.history = woken queue σ.history := by
      rw [hh]; exact List.append_nil _
    rw [hp,hw,ho queue,departed_eq hn']
    exact List.prefix_append _ _

/-- The queues of a run hold identifiers of threads. -/
theorem identifiers_of_reachable {ok : State → Action → Prop} {s : State} (h : Reachable ok s)
    (hr : s.status = .running) :
    (∀ queue, ∀ t ∈ s.waitQueues queue, t ≠ -1) ∧ ∀ t ∈ s.readyQueue, t ≠ -1 := by
  have hi := (sound_control_of_reachable h hr).1.toInv
  have hne : ∀ {p t}, t ∈ (view s).place p → t ≠ -1 := fun {p t} ht =>
    (lt_of_lt_of_le (by decide) (hi.range p t ht).1).ne'
  exact ⟨fun queue t ht => hne (p := .waiting queue) ht,fun t ht => hne (p := .ready) ht⟩

theorem returnTo_aside (v : ℤ) : ∀ (k : List Frame) (s : State),
    (returnTo v k s).waitQueues = s.waitQueues ∧
      ∃ n, (returnTo v k s).history = n ++ s.history ∧ ∀ e ∈ n, Aside e
  | [], _ => ⟨rfl,[],rfl,by simp⟩
  | f::k, s => by
    cases f with
    | sleep e => exact returnTo_aside v k { s with interrupts := e }
    | wait tid e => exact returnTo_aside tid k { s with interrupts := e }
    | cvReacquired cv l e => exact returnTo_aside v k { s with interrupts := e }
    | call c => exact ⟨rfl,[_],rfl,by simp [Aside,pushes,wakes,drops]⟩
    | _ => exact ⟨rfl,[],rfl,by simp⟩

/-- Threads were taken off a queue and not made ready. -/
structure Discards (queue : WaitQueue) (s s' : State) : Prop where
  fewer : (s'.waitQueues queue).length < (s.waitQueues queue).length
  quiet : ∃ n, s'.history = n ++ s.history ∧ ∀ e ∈ n, pushes queue e = [] ∧ wakes queue e = []

/-- A round of the loop of `wait_queue_destroy` that meets a waiting thread. -/
theorem destroyLoop_discards {s : State} {queue : WaitQueue} {t : Tid} {rest : List Tid} (ht : t ≠ -1)
    (hq : s.waitQueues queue = t::rest) (hf : s.freed queue = false) :
    Discards queue s (destroyLoop queue s) := by
  have he : destroyLoop queue s = { (s.setQueue queue rest).record (.discarded t queue) with
      frames := .destroy queue::s.frames } := by
    simp [destroyLoop,withQueue,hf,popHeadThreadWait,hq,ht]
  rw [he]
  refine ⟨?_,[.discarded t queue],rfl,by simp [pushes,wakes]⟩
  simp [State.record,State.setQueue,hq]

/-- A queue is freed with a thread in it that was pushed after the last round of the loop. -/
theorem destroyEnd_discards {s : State} {queue : WaitQueue} (hq : s.waitQueues queue ≠ [])
    (hf : s.freed queue = false) : Discards queue s (destroyEnd queue s) := by
  obtain ⟨u,he,hw,hh⟩ : ∃ u, destroyEnd queue s = return_ 0 u ∧ u.waitQueues queue = [] ∧
      u.history = (freeWaitQueue queue s).history := by
    have hempty : (freeWaitQueue queue s).waitQueues queue = [] := by simp [freeWaitQueue,State.setQueue]
    cases queue with
    | waitOnLock lock =>
      exact ⟨(freeWaitQueue (.waitOnLock lock) s).setLock lock none,by simp [destroyEnd,withQueue,hf],hempty,rfl⟩
    | _ => exact ⟨freeWaitQueue _ s,by simp [destroyEnd,withQueue,hf],hempty,rfl⟩
  obtain ⟨hret,n,hn,haside⟩ := returnTo_aside 0 u.frames u
  rw [he]
  refine ⟨?_,n ++ ((s.waitQueues queue).map fun t => Event.discarded t queue).reverse,?_,fun e hm => ?_⟩
  · rw [return_,hret,hw]
    exact List.length_pos_iff.mpr hq
  · rw [return_,hn,hh,List.append_assoc]
    rfl
  · rcases List.mem_append.mp hm with hm | hm
    · exact ⟨(haside e hm queue []).1,(haside e hm queue []).2.1⟩
    · obtain ⟨t,-,rfl⟩ := List.mem_map.mp (List.mem_reverse.mp hm)
      exact ⟨rfl,rfl⟩

theorem step_discards {s s' : State} {a : Action} (h : Reachable anyStep s) (hst : step s a = some s')
    {queue : WaitQueue} (hround : destroyRound s a = some queue) (hq : s.waitQueues queue ≠ []) :
    Discards queue s s' := by
  have hrun := running_of_step hst
  have hf : s.freed queue = false := by
    by_contra hf
    exact hq (DestroyedQueues.destroyed_queue_empty h hrun (by simpa using hf))
  cases a with
  | run =>
    simp only [destroyRound] at hround
    split at hround
    · rename_i k hk
      obtain rfl := Option.some.inj hround
      obtain ⟨t,rest,hcons⟩ := List.exists_cons_of_ne_nil hq
      have ht : t ≠ -1 := (identifiers_of_reachable h hrun).1 _ t (by rw [hcons]; exact List.mem_cons_self)
      obtain rfl : destroyLoop _ { s with frames := k } = s' := by
        simpa [step,hrun,resume,hk] using hst
      have hd := destroyLoop_discards (s := { s with frames := k }) ht hcons hf
      exact ⟨hd.fewer,hd.quiet⟩
    · rename_i k hk
      obtain rfl := Option.some.inj hround
      obtain rfl : destroyEnd _ { s with frames := k } = s' := by
        simpa [step,hrun,resume,hk] using hst
      have hd := destroyEnd_discards (s := { s with frames := k }) hq hf
      exact ⟨hd.fewer,hd.quiet⟩
    · cases hround
  | _ => cases hround

/-- The order survives the steps that discard nobody, and no other ones. -/
theorem wokenInOrder_iff {s s' : State} {a : Action} (h : Reachable NoDiscard s)
    (hst : step s a = some s') (hr : s'.status = .running) : WokenInOrder s' ↔ NoDiscard s a := by
  refine ⟨fun ho queue hround => ?_,fun ha => wokenInOrder_of_reachable (.step a h ha hst)⟩
  by_contra hq
  obtain ⟨hlt,n,hn,hquiet⟩ := step_discards (h.mono fun _ _ _ => trivial) hst hround hq
  -- nobody was pushed or made ready, and fewer threads wait
  have hold := congrArg List.length ((wokenInOrder_of_reachable h).waiting (running_of_step hst) queue)
  have hnew := congrArg List.length (ho.waiting hr queue)
  have hp : pushed queue s'.history = pushed queue s.history := by
    rw [hn]
    exact collect_append fun e he => (hquiet e he).1
  have hk : woken queue s'.history = woken queue s.history := by
    rw [hn]
    exact collect_append fun e he => (hquiet e he).2
  rw [hp,hk] at hnew
  simp only [List.length_append,List.length_map] at hold hnew
  omega

/-! ### One call -/

/-- What `thread_wakeup(queue, 1)` returns and leaves of a wait queue `q` and a ready queue `r`. -/
structure WakesAll (q r : List Tid) (wokeUp : ℤ) (q' r' : List Tid) : Prop where
  returns : wokeUp = q.length
  waiting : q' = []
  ready : r' = r ++ q

/-- What `thread_wakeup(queue, 0)` returns and leaves. -/
structure WakesFirst (q r : List Tid) (wokeUp : ℤ) (q' r' : List Tid) : Prop where
  returns : wokeUp = if q = [] then 0 else 1
  waiting : q' = q.tail
  ready : r' = r ++ q.take 1

section Calls

variable {s : State} {queue : WaitQueue} (waker : Waker) (hn : ∀ t ∈ s.waitQueues queue, t ≠ -1)

include hn in
theorem threadWakeup_wakesAll : WakesAll (s.waitQueues queue) s.readyQueue (threadWakeup waker queue 1 s).1
    ((threadWakeup waker queue 1 s).2.waitQueues queue) (threadWakeup waker queue 1 s).2.readyQueue := by
  obtain ⟨l,rest,hq,hrest,-,hv,hs⟩ := threadWakeup_eq waker queue 1 s hn
  obtain rfl := hrest rfl
  rw [List.append_nil] at hq
  rw [hs,hv,hq]
  exact ⟨rfl,by simp,rfl⟩

theorem threadWakeup_wakesFirst {all : ℤ} (ha : all ≠ 1) :
    WakesFirst (s.waitQueues queue) s.readyQueue (threadWakeup waker queue all s).1
      ((threadWakeup waker queue all s).2.waitQueues queue) (threadWakeup waker queue all s).2.readyQueue := by
  cases hq : s.waitQueues queue with
  | nil => exact ⟨by simp [threadWakeup,hq],by simp [threadWakeup,hq],by simp [threadWakeup,hq]⟩
  | cons t rest =>
    refine ⟨by simp [threadWakeup,hq,ha],?_,?_⟩ <;>
      simp [threadWakeup,hq,ha,State.setQueue,State.record,addToTail]

end Calls

/-- A wait queue `q` and a ready queue `r` in memory, and what a call makes of them. -/
def InMemory (all : ℤ) (Wakes : List Tid → List Tid → ℤ → List Tid → List Tid → Prop) : Prop :=
  ∀ malloc : ListSequences.ReadyQueue → LinkedQueue.Addr,
    (∀ q : ListSequences.ReadyQueue, q.nodes (malloc q) = none) →
    ∀ m queue ready q r, WaitLists.Holds m queue q → DoublyLinked.Holds ready r → (∀ t ∈ q, t ≠ -1) →
      ∃ wokeUp m' ready' q' r',
        WaitLists.threadWakeup malloc (some queue) all (m,ready) = some (wokeUp,m',ready') ∧
          WaitLists.Holds m' queue q' ∧ DoublyLinked.Holds ready' r' ∧ Wakes q r wokeUp q' r'

theorem inMemory_wakesAll : InMemory 1 WakesAll := by
  intro malloc hmalloc m queue ready q r hw hr hn
  obtain ⟨m',ready',hcall,hw',hr'⟩ := WaitLists.threadWakeup_all hmalloc hw hr hn
  exact ⟨_,m',ready',_,_,hcall,hw',hr',rfl,rfl,rfl⟩

theorem inMemory_wakesFirst : InMemory 0 WakesFirst := by
  intro malloc hmalloc m queue ready q r hw hr hn
  obtain ⟨m',ready',hcall,hw',hr'⟩ := WaitLists.threadWakeup_first hmalloc hw hr zero_ne_one
  exact ⟨_,m',ready',_,_,hcall,hw',hr',by cases q <;> simp,rfl,rfl⟩

/-- A thread that exits makes its waiters ready in order, behind the ready threads, and the first of
all of them runs. -/
structure ExitWakes (marked : Bool) (s : State) : Prop where
  next : ∀ next rest, s.readyQueue ++ s.waitQueues (.tWait s.currentThreadId) = next::rest →
    (threadExit marked s).currentThreadId = next ∧ (threadExit marked s).readyQueue = rest ∧
      (threadExit marked s).waitQueues (.tWait s.currentThreadId) = []
  last : s.readyQueue ++ s.waitQueues (.tWait s.currentThreadId) = [] →
    (threadExit marked s).status = .exited

theorem threadExit_wakes {s : State} (marked : Bool)
    (hn : ∀ t ∈ s.waitQueues (.tWait s.currentThreadId), t ≠ -1) (hr : ∀ t ∈ s.readyQueue, t ≠ -1) :
    ExitWakes marked s where
  next next rest h := by
    have hnext : next ∈ s.readyQueue ++ s.waitQueues (.tWait s.currentThreadId) := by simp [h]
    have h₁ : next ≠ -1 := (List.mem_append.mp hnext).elim (hr next) (hn next)
    rw [threadExit_next hn h h₁]
    exact ⟨rfl,rfl,by simp [switchTo,setcontext,State.modify,exited]⟩
  last h := (threadExit_last marked h).1

/-! ### Calls and runs -/

/-- One call of `thread_wakeup` or `thread_exit` keeps the order, on lists and in memory. In a run in
which `wait_queue_destroy` meets no waiting thread the threads pushed on a queue are made ready in the
order in which they were pushed, each once; the first step that meets one breaks it. -/
theorem fifo_wakeup (s : State) :
    (∀ waker queue, (∀ t ∈ s.waitQueues queue, t ≠ -1) →
      WakesAll (s.waitQueues queue) s.readyQueue (threadWakeup waker queue 1 s).1
          ((threadWakeup waker queue 1 s).2.waitQueues queue) (threadWakeup waker queue 1 s).2.readyQueue ∧
        WakesFirst (s.waitQueues queue) s.readyQueue (threadWakeup waker queue 0 s).1
          ((threadWakeup waker queue 0 s).2.waitQueues queue) (threadWakeup waker queue 0 s).2.readyQueue) ∧
    (InMemory 1 WakesAll ∧ InMemory 0 WakesFirst) ∧
    (Reachable anyStep s → s.status = .running →
      (∀ queue, ∀ t ∈ s.waitQueues queue, t ≠ -1) ∧ ∀ marked, ExitWakes marked s) ∧
    (Reachable NoDiscard s → WokenInOrder s ∧
      ∀ a s', step s a = some s' → s'.status = .running → (WokenInOrder s' ↔ NoDiscard s a)) := by
  refine ⟨fun waker queue hn => ⟨threadWakeup_wakesAll waker hn,threadWakeup_wakesFirst waker zero_ne_one⟩,
    ⟨inMemory_wakesAll,inMemory_wakesFirst⟩,fun h hr => ?_,fun h => ?_⟩
  · obtain ⟨hn,hready⟩ := identifiers_of_reachable h hr
    exact ⟨hn,fun marked => threadExit_wakes marked (hn _) hready⟩
  · exact ⟨wokenInOrder_of_reachable h,fun a s' hst hr => wokenInOrder_iff h hst hr⟩

/-- The main thread and thread 1 sleep on one queue, and thread 2 runs. -/
def twoSleepers : State :=
  final step [.call (.threadCreate true),.call (.threadCreate true),.call (.threadSleep (some 0)),.run,.run,
    .run,.call (.threadSleep (some 0)),.run,.run,.run] threadInit (by decide +kernel)

/-- A test that allows the steps of `wait_queue_destroy` on an empty queue only. -/
def meetsNobody (s : State) (a : Action) : Bool :=
  match destroyRound s a with
  | some queue => s.waitQueues queue == []
  | none => true

theorem noDiscard_of_meetsNobody (s : State) (a : Action) (h : meetsNobody s a = true) :
    NoDiscard s a := by
  intro queue hround
  simpa [meetsNobody,hround] using h

theorem twoSleepers_in_order : WokenInOrder twoSleepers ∧
    (threadWakeup .threadWakeup (.created 0) 1 twoSleepers).2.readyQueue = [0,1] := by
  have hr : Reachable NoDiscard twoSleepers :=
    reachable_final_of_checked noDiscard_of_meetsNobody .init (by decide +kernel)
  have hn : ∀ t ∈ twoSleepers.waitQueues (.created 0), t ≠ -1 := by decide +kernel
  have hq : twoSleepers.readyQueue ++ twoSleepers.waitQueues (.created 0) = [0,1] := by decide +kernel
  obtain ⟨hcall,-,-,hrun⟩ := fifo_wakeup twoSleepers
  exact ⟨(hrun hr).1,(hcall .threadWakeup _ hn).1.ready.trans hq⟩

/-- Thread 2 was pushed on the queue of the lock, is in no queue, and was not made ready. -/
theorem destroyInterrupted_not_woken : Reachable anyStep LockWaiters.afterDestroyInterrupted ∧
    ¬ WokenInOrder LockWaiters.afterDestroyInterrupted := by
  refine ⟨reachable_final .init fun _ _ _ => trivial,fun h => ?_⟩
  have hw := h.waiting (by decide +kernel) (.waitOnLock 0)
  exact absurd hw (by decide +kernel)

end WakeupOrder
end OsLabs

import OsLabs.ConnectionPool

/-!
# The workers at shutdown

`server_exit` sets the flag and wakes up the workers that wait. A worker pops before it looks at
the flag, and drops what it has popped; a worker that comes from a request and finds the queue
empty waits without a look at the flag. So nothing is lost if and only if the queue is empty when
the flag is set, and nobody sleeps behind the broadcast if and only if no worker starts on an
empty queue behind it.
-/

namespace OsLabs
namespace ServerShutdown

open ConnectionQueue ConnectionPool LinkedQueue Transition

variable {maxSize nrThreads : ℕ} {s s' t : Server} {l : List (Addr × ℤ)}

abbrev Interleaving (nrThreads maxRequests : ℕ) : Server → Prop :=
  Reachable (serverInit maxRequests) (step nrThreads) fun _ _ => True

theorem queue_nil_iff (h : Sound maxSize s l) :
    (view s l).queue = [] ↔ s.connectionRequests.elems.head = none := by
  rw [h.holds.linked.head_eq]
  simp [view]

section Workers

variable {ws ws' : Worker → WorkerPc} {v w : Worker} {pc pc' : WorkerPc}

theorem eq_of_wakes (h : Wakes ws ws') (hpc : pc ≠ .woken) (hw : ws' w = pc) : ws w = pc := by
  rcases h w with he | ⟨-,he⟩
  · exact he ▸ hw
  · exact absurd (hw.symm.trans he) hpc

theorem eq_of_update (hpc : pc' ≠ pc) (hv : Function.update ws w pc' v = pc) : ws v = pc := by
  by_cases hvw : v = w
  · subst hvw
    exact absurd ((Function.update_self ..).symm.trans hv) hpc
  · exact (Function.update_of_ne hvw ..).symm.trans hv

end Workers

/-! ## Dropped connections -/

/-- The server exits only when no connection is queued. -/
def EmptyExit (s : Server) (a : Action) : Prop :=
  a = .serverExit → s.connectionRequests.elems.head = none

/-- Everything that was pushed is fulfilled as soon as a worker has left. -/
structure Lossless (p : Pool) : Prop where
  order : p.pushed = p.popped ++ p.queue
  fulfilled : p.fulfilled = p.popped
  closed : p.exiting = true → p.main = .exiting ∧ p.queue = []
  left : ∀ w, p.workers w = .left → p.exiting = true

theorem signal_exiting {pc : MainPc} (h : pc = .exiting) : pc.signal = .exiting := by
  rw [h]
  rfl

theorem lossless_move {p p' : Pool} {a : Action} (hm : Move maxSize p a p')
    (hempty : a = .serverExit → p.queue = []) (h : Lossless p) : Lossless p' := by
  cases hm with
  | direct => exact h
  | block _ _ hmain => exact ⟨h.order,h.fulfilled,fun he => absurd (h.closed he).1 hmain,h.left⟩
  | push _ connfd ws hmain _ hws =>
    refine ⟨?_,h.fulfilled,fun he => absurd (h.closed he).1 hmain,
      fun w hw => h.left w (eq_of_wakes hws (by simp) hw)⟩
    rw [h.order,List.append_assoc]
  | close => exact ⟨h.order,h.fulfilled,fun he => ⟨rfl,(h.closed he).2⟩,h.left⟩
  | exit => exact ⟨h.order,h.fulfilled,fun _ => ⟨rfl,hempty rfl⟩,fun _ _ => rfl⟩
  | sleep w =>
    exact ⟨h.order,h.fulfilled,h.closed,fun v hv => h.left v (eq_of_update (by simp) hv)⟩
  | leave w hexiting =>
    obtain ⟨hmain,hqueue⟩ := h.closed hexiting
    refine ⟨?_,?_,fun _ => ⟨signal_exiting hmain,?_⟩,fun _ _ => hexiting⟩
    · rw [h.order,hqueue]
      simp
    · rw [h.fulfilled,hqueue]
      simp
    · rw [hqueue]
      rfl
  | fulfil w front rest hexiting hqueue =>
    refine ⟨?_,?_,fun he => ?_,fun v hv => h.left v (eq_of_update (by simp) hv)⟩
    · rw [h.order,hqueue,List.append_assoc]
      rfl
    · rw [h.fulfilled]
    · exact absurd (hexiting.symm.trans he) (by simp)
  | fulfilled w =>
    exact ⟨h.order,h.fulfilled,h.closed,fun v hv => h.left v (eq_of_update (by simp) hv)⟩
  | wakeMain =>
    exact ⟨h.order,h.fulfilled,fun he => ⟨signal_exiting (h.closed he).1,(h.closed he).2⟩,h.left⟩
  | wake w =>
    exact ⟨h.order,h.fulfilled,h.closed,fun v hv => h.left v (eq_of_update (by simp) hv)⟩

/-- The flag is set, and some connection will never be fulfilled. -/
structure Dropped (p : Pool) : Prop where
  exiting : p.exiting = true
  main : p.main = .exiting
  lost : p.fulfilled.length < p.pushed.length

theorem dropped_move {p p' : Pool} {a : Action} (hm : Move maxSize p a p') (h : Dropped p) :
    Dropped p' := by
  cases hm with
  | block _ _ hmain => exact absurd h.main hmain
  | push _ _ _ hmain => exact absurd h.main hmain
  | fulfil _ _ _ hexiting => exact absurd (hexiting.symm.trans h.exiting) (by simp)
  | leave => exact ⟨h.exiting,signal_exiting h.main,h.lost⟩
  | wakeMain => exact ⟨h.exiting,signal_exiting h.main,h.lost⟩
  | close => exact ⟨h.exiting,rfl,h.lost⟩
  | exit => exact ⟨rfl,rfl,h.lost⟩
  | _ => exact ⟨h.exiting,h.main,h.lost⟩

/-- What is queued when the flag is set is lost. -/
theorem dropped_of_exit (hn : 0 < nrThreads) (h : Interleaving nrThreads maxSize s)
    (hs : step nrThreads s .serverExit = some s')
    (hqueue : s.connectionRequests.elems.head ≠ none) :
    ∃ l, Sound maxSize s' l ∧ Dropped (view s' l) := by
  obtain ⟨l,hsound,hfifo⟩ := pool_invariant (P := Fifo maxSize)
    ⟨rfl,Nat.zero_le _,List.Sublist.refl _⟩ (fun _ _ _ _ _ hp _ hm => hm.fifo hp) h
  obtain ⟨l',hsound',-⟩ := step_refines hsound hs
  have hne : (view s l).queue ≠ [] := fun he => hqueue ((queue_nil_iff hsound).mp he)
  have hlost : s.fulfilled.length < s.pushed.length := by
    have horder : s.pushed.length = s.popped.length + (view s l).queue.length := by
      rw [← List.length_append]
      exact congrArg List.length hfifo.order
    have hle : s.fulfilled.length ≤ s.popped.length := hfifo.fulfilled.length_le
    have hpos := List.length_pos_iff.mpr hne
    omega
  unfold step at hs
  rw [if_neg (not_not_intro hsound.running)] at hs
  obtain ⟨-,hs⟩ := Option.ite_none_left_eq_some.mp hs
  rw [if_neg hn.ne'] at hs
  obtain rfl := Option.some.inj hs
  exact ⟨l',hsound',rfl,rfl,hlost⟩

/-- In every run in which `server_exit` finds the queue empty every connection that was pushed is
fulfilled once all workers have left; behind a `server_exit` on another queue this is never so. -/
theorem shutdown_fulfils_iff_empty (nrThreads maxRequests : ℕ) (hn : 0 < nrThreads) :
    (∀ s, Reachable (serverInit maxRequests) (step nrThreads) EmptyExit s →
      (∀ w < nrThreads, s.workers w = .left) → s.fulfilled = s.pushed) ∧
    (∀ s s' t, Interleaving nrThreads maxRequests s → step nrThreads s .serverExit = some s' →
      s.connectionRequests.elems.head ≠ none →
      Reachable s' (step nrThreads) (fun _ _ => True) t → t.fulfilled ≠ t.pushed) := by
  constructor
  · intro s h hleft
    obtain ⟨l,-,hp⟩ := pool_invariant (P := Lossless)
      ⟨rfl,rfl,fun he => Bool.noConfusion he,fun _ hw => WorkerPc.noConfusion hw⟩
      (fun s l a _ hsound hp hok hm =>
        lossless_move hm (fun ha => (queue_nil_iff hsound).mpr (hok ha)) hp) h
    have hexiting := hp.left 0 (hleft 0 hn)
    have horder := hp.order
    rw [(hp.closed hexiting).2,List.append_nil] at horder
    exact hp.fulfilled.trans horder.symm
  · intro s s' t h hs hqueue ht
    obtain ⟨l,-,hdropped⟩ := ht.invariant (P := fun s => ∃ l, Sound maxRequests s l ∧ Dropped (view s l))
      (dropped_of_exit hn h hs hqueue) (by
        rintro s a s' ⟨l,hsound,hd⟩ - hs
        obtain ⟨l',hsound',hm⟩ := step_refines hsound hs
        exact ⟨l',hsound',dropped_move hm hd⟩)
    intro he
    have hlost : t.fulfilled.length < t.pushed.length := hdropped.lost
    exact hlost.ne (congrArg List.length he)

theorem shutdown_fulfils_iff_empty_one : 0 < 1 ∧
    (∀ s, Reachable (serverInit 1) (step 1) EmptyExit s →
      (∀ w < 1, s.workers w = .left) → s.fulfilled = s.pushed) ∧
    (∀ s s' t, Interleaving 1 1 s → step 1 s .serverExit = some s' →
      s.connectionRequests.elems.head ≠ none →
      Reachable s' (step 1) (fun _ _ => True) t → t.fulfilled ≠ t.pushed) :=
  ⟨by decide,shutdown_fulfils_iff_empty 1 1 (by decide)⟩

/-- The worker pops the connection when the flag is set, and leaves. -/
def droppedConnection : Server :=
  final (step 1) [.serverRequest 5 none,.serverExit,.work 0] (serverInit 1) (by decide +kernel)

theorem droppedConnection_unfulfilled : ¬ ∀ nrThreads maxRequests s, 0 < nrThreads →
    0 < maxRequests → Interleaving nrThreads maxRequests s →
    (∀ w < nrThreads, s.workers w = .left) → ∀ connfd ∈ s.pushed, connfd ∈ s.fulfilled := by
  intro h
  have hpushed : droppedConnection.pushed = [5] := by decide +kernel
  have hfulfilled : droppedConnection.fulfilled = [] := by decide +kernel
  have hm := h 1 1 droppedConnection (by decide) (by decide)
    (reachable_final .init fun _ _ _ => trivial) (by decide +kernel) 5 (by rw [hpushed]; simp)
  rw [hfulfilled] at hm
  cases hm

/-! ## Sleeping workers -/

/-- A worker comes to the head of its loop behind the broadcast and finds the queue empty. -/
def LateStart (s : Server) (w : Worker) : Prop :=
  s.isServerExiting = true ∧ s.workers w = .top ∧ s.connectionRequests.elems.head = none

def NoLateStart (s : Server) (a : Action) : Prop := ∀ w, a = .work w → ¬ LateStart s w

/-- Nobody waits behind the broadcast. -/
def Awake (p : Pool) : Prop := ∀ w, p.workers w = .waiting → p.exiting = false

theorem awake_move {p p' : Pool} {a : Action} (hm : Move maxSize p a p')
    (hstart : ∀ w, a = .work w → p.workers w = .top → p.queue = [] → p.exiting = false)
    (h : Awake p) : Awake p' := by
  intro v hv
  cases hm with
  | push _ _ _ _ _ hws => exact h v (eq_of_wakes hws (by simp) hv)
  | exit ws _ _ hall => exact absurd hv (hall v)
  | sleep w hqueue hw =>
    rcases hw with hw | ⟨-,hexiting⟩
    · exact hstart w rfl hw hqueue
    · exact hexiting
  | leave => exact h v (eq_of_update (by simp) hv)
  | fulfil => exact h v (eq_of_update (by simp) hv)
  | fulfilled => exact h v (eq_of_update (by simp) hv)
  | wake => exact h v (eq_of_update (by simp) hv)
  | _ => exact h v hv

/-- In every run without a late start no worker waits behind the broadcast, and a late start goes
to sleep behind it. -/
theorem awake_iff_noLateStart (nrThreads maxRequests : ℕ) :
    (∀ s, Reachable (serverInit maxRequests) (step nrThreads) NoLateStart s →
      ∀ w, s.workers w = .waiting → s.isServerExiting = false) ∧
    (∀ s s' w, Interleaving nrThreads maxRequests s → LateStart s w →
      step nrThreads s (.work w) = some s' →
      s'.workers w = .waiting ∧ s'.isServerExiting = true) := by
  constructor
  · intro s h
    obtain ⟨l,-,hp⟩ := pool_invariant (P := Awake) (fun _ _ => rfl)
      (fun s l a _ hsound hp hok hm => awake_move hm (fun w ha htop hqueue => by
        by_contra hexiting
        exact hok w ha ⟨Bool.of_not_eq_false hexiting,htop,(queue_nil_iff hsound).mp hqueue⟩) hp) h
    exact hp
  · rintro s s' w h ⟨hexiting,htop,hhead⟩ hs
    obtain ⟨l,hsound,-⟩ := pool_invariant (P := fun _ => True) trivial (fun _ _ _ _ _ _ _ _ => trivial) h
    obtain rfl : l = [] := by simpa [view] using (queue_nil_iff hsound).mpr hhead
    unfold step at hs
    rw [if_neg (not_not_intro hsound.running)] at hs
    obtain ⟨-,hs⟩ := Option.ite_none_right_eq_some.mp hs
    rw [htop] at hs
    obtain rfl := Option.some.inj hs
    simp [workSection,popConnection_nil hsound.holds,Server.setWorker,hexiting]

/-- A test that allows a worker at the head of its loop only before the broadcast. -/
def startsEarly (s : Server) : Action → Bool
  | .work w => !s.isServerExiting || s.workers w ≠ .top
  | _ => true

theorem noLateStart_of_startsEarly (s : Server) (a : Action) (h : startsEarly s a = true) :
    NoLateStart s a := by
  rintro w rfl ⟨hexiting,htop,-⟩
  simp [startsEarly,hexiting,htop] at h

/-- The worker sleeps, serves a request, sleeps again and is woken up to leave. -/
def earlySleeper : Server :=
  final (step 1) [.work 0,.serverRequest 5 (some 0),.work 0,.fulfilled 0,.work 0,.serverExit,.work 0]
    (serverInit 1) (by decide +kernel)

theorem earlySleeper_left : earlySleeper.isServerExiting = true ∧ earlySleeper.workers 0 = .left ∧
    ∀ w, earlySleeper.workers w ≠ .waiting := by
  have hexiting : earlySleeper.isServerExiting = true := by decide +kernel
  refine ⟨hexiting,by decide +kernel,fun w hw => ?_⟩
  have hawake := (awake_iff_noLateStart 1 1).1 earlySleeper
    (reachable_final_of_checked noLateStart_of_startsEarly .init (by decide +kernel)) w hw
  rw [hexiting] at hawake
  cases hawake

/-- The worker is busy with a request when the broadcast is sent. -/
def lateSleeper : Server :=
  final (step 1) [.serverRequest 5 none,.work 0,.serverExit,.fulfilled 0,.work 0] (serverInit 1)
    (by decide +kernel)

theorem lateSleeper_waits : ¬ ∀ nrThreads maxRequests s, Interleaving nrThreads maxRequests s →
    ∀ w, s.workers w = .waiting → s.isServerExiting = false := by
  intro h
  have hwaiting : lateSleeper.workers 0 = .waiting := by decide +kernel
  have hexiting : lateSleeper.isServerExiting = true := by decide +kernel
  have hfalse := h 1 1 lateSleeper (reachable_final .init fun _ _ _ => trivial) 0 hwaiting
  rw [hexiting] at hfalse
  cases hfalse

end ServerShutdown
end OsLabs

import OsLabs.ConnectionQueue
import OsLabs.Transition

/-!
# The connection queue as a bounded queue

An abstract pool of workers over a list of connections. The steps of the server follow pointers;
each of them is a move of the pool, so the linked elements are a bounded FIFO queue in every
interleaving.
-/

namespace OsLabs
namespace ConnectionPool

open ConnectionQueue LinkedQueue Transition

/-- The connections that wait, in order, and the threads. -/
structure Pool where
  queue : List ℤ
  exiting : Bool
  main : MainPc
  workers : Worker → WorkerPc
  pushed : List ℤ
  popped : List ℤ
  fulfilled : List ℤ

/-- Some of the workers that wait are woken up. -/
def Wakes (ws ws' : Worker → WorkerPc) : Prop :=
  ∀ w, ws' w = ws w ∨ ws w = .waiting ∧ ws' w = .woken

/-- What an action does to the pool. -/
inductive Move (maxSize : ℕ) (p : Pool) : Action → Pool → Prop
  | direct (connfd : ℤ) (wakes : Option Worker) : Move maxSize p (.serverRequest connfd wakes) p
  | block (a : Action) (connfd : ℤ) (hmain : p.main ≠ .exiting)
      (hfull : maxSize ≤ p.queue.length) : Move maxSize p a { p with main := .waiting connfd }
  | push (a : Action) (connfd : ℤ) (ws : Worker → WorkerPc) (hmain : p.main ≠ .exiting)
      (hroom : p.queue.length < maxSize) (hws : Wakes p.workers ws) :
      Move maxSize p a { p with
        queue := p.queue ++ [connfd], main := .idle, workers := ws, pushed := p.pushed ++ [connfd] }
  /-- a server without workers does not set the flag -/
  | close (hmain : p.main = .idle) : Move maxSize p .serverExit { p with main := .exiting }
  | exit (ws : Worker → WorkerPc) (hmain : p.main = .idle) (hws : Wakes p.workers ws)
      (hall : ∀ w, ws w ≠ .waiting) :
      Move maxSize p .serverExit { p with exiting := true, main := .exiting, workers := ws }
  | sleep (w : Worker) (hqueue : p.queue = [])
      (hw : p.workers w = .top ∨ p.workers w = .woken ∧ p.exiting = false) :
      Move maxSize p (.work w) { p with workers := Function.update p.workers w .waiting }
  /-- the connection that the worker has popped, if any, is dropped -/
  | leave (w : Worker) (hexiting : p.exiting = true) :
      Move maxSize p (.work w) { p with
        queue := p.queue.tail, main := p.main.signal
        workers := Function.update p.workers w .left
        popped := p.popped ++ p.queue.head?.toList }
  | fulfil (w : Worker) (front : ℤ) (rest : List ℤ) (hexiting : p.exiting = false)
      (hqueue : p.queue = front::rest) :
      Move maxSize p (.work w) { p with
        queue := rest, main := p.main.signal
        workers := Function.update p.workers w (.fulfilling front)
        popped := p.popped ++ [front], fulfilled := p.fulfilled ++ [front] }
  | fulfilled (w : Worker) (connfd : ℤ) (hw : p.workers w = .fulfilling connfd) :
      Move maxSize p (.fulfilled w) { p with workers := Function.update p.workers w .top }
  | wakeMain : Move maxSize p .spuriousMain { p with main := p.main.signal }
  | wake (w : Worker) (hw : p.workers w = .waiting) :
      Move maxSize p (.spurious w) { p with workers := Function.update p.workers w .woken }

/-! ## The server is a pool -/

/-- The `connfd` that the main thread is about to push. -/
def MainPc.Pending (connfd : ℤ) : MainPc → Prop
  | .waiting c => c = connfd
  | .woken c => c = connfd
  | _ => False

/-- The server runs, and its queue has the elements `l`. -/
structure Sound (maxSize : ℕ) (s : Server) (l : List (Addr × ℤ)) : Prop where
  holds : Holds s.connectionRequests l
  maxSize_eq : s.connectionRequests.maxSize = maxSize
  running : s.status = .running
  queued : ∀ c ∈ l, 0 ≤ c.2
  pending : ∀ connfd, MainPc.Pending connfd s.main → 0 ≤ connfd

def view (s : Server) (l : List (Addr × ℤ)) : Pool where
  queue := l.map Prod.snd
  exiting := s.isServerExiting
  main := s.main
  workers := s.workers
  pushed := s.pushed
  popped := s.popped
  fulfilled := s.fulfilled

section Refinement

variable {maxSize nrThreads : ℕ} {s s' : Server} {l : List (Addr × ℤ)}

theorem pending_signal {connfd : ℤ} {pc : MainPc} (h : MainPc.Pending connfd pc.signal) :
    MainPc.Pending connfd pc := by
  cases pc <;> exact h

theorem wakes_update {ws : Worker → WorkerPc} {w : Worker} (hw : ws w = .waiting) :
    Wakes ws (Function.update ws w .woken) := by
  intro v
  by_cases hv : v = w
  · subst hv
    exact .inr ⟨hw,Function.update_self ..⟩
  · exact .inl (Function.update_of_ne hv ..)

theorem wakes_broadcast (ws : Worker → WorkerPc) :
    Wakes ws fun w => if ws w = .waiting then .woken else ws w := by
  intro w
  by_cases hw : ws w = .waiting
  · exact .inr ⟨hw,if_pos hw⟩
  · exact .inl (if_neg hw)

/-- A signal changes nothing but the workers. -/
theorem signalWork_cases {wakes : Option Worker} (h : signalWork nrThreads wakes s = some s') :
    ∃ ws, Wakes s.workers ws ∧ s' = { s with workers := ws } := by
  cases wakes with
  | none =>
    obtain ⟨-,h⟩ := Option.ite_none_right_eq_some.mp h
    obtain rfl := Option.some.inj h
    exact ⟨s.workers,fun _ => .inl rfl,rfl⟩
  | some w =>
    obtain ⟨hw,h⟩ := Option.ite_none_right_eq_some.mp h
    obtain rfl := Option.some.inj h
    exact ⟨_,wakes_update hw,rfl⟩

/-- The assertion of `server_request` holds, so the section blocks or pushes. -/
theorem requestSection_refines {connfd : ℤ} {wakes : Option Worker} (a : Action)
    (h : Sound maxSize s l) (hc : 0 ≤ connfd) (hmain : s.main ≠ .exiting)
    (hs : requestSection nrThreads connfd wakes s = some s') :
    ∃ l', Sound maxSize s' l' ∧ Move maxSize (view s l) a (view s' l') := by
  have hlength : (view s l).queue.length = l.length := List.length_map ..
  rcases Nat.lt_or_ge l.length maxSize with hroom | hfull
  · obtain ⟨q,hq,hholds,hmax⟩ := pushConnection_room h.holds (h.maxSize_eq ▸ hroom) connfd
    simp only [requestSection,hq,hholds.tailConnfd,if_true] at hs
    obtain ⟨ws,hws,rfl⟩ := signalWork_cases hs
    refine ⟨_,⟨hholds,hmax.trans h.maxSize_eq,h.running,?_,fun _ hp => hp.elim⟩,?_⟩
    · intro c hm
      rcases List.mem_append.mp hm with hm | hm
      · exact h.queued c hm
      · obtain rfl := List.mem_singleton.mp hm
        exact hc
    · have hmove : Move maxSize (view s l) a _ := .push a connfd ws hmain (hlength ▸ hroom) hws
      simpa [view] using hmove
  · obtain ⟨q,hq,hholds,hmax⟩ := pushConnection_full h.holds (h.maxSize_eq ▸ hfull) connfd
    simp only [requestSection,hq,Option.some.injEq] at hs
    subst hs
    refine ⟨l,⟨hholds,hmax.trans h.maxSize_eq,h.running,h.queued,?_⟩,
      .block a connfd hmain (hlength ▸ hfull)⟩
    rintro c rfl
    exact hc

/-- A worker that does not wait leaves or fulfils the connection. -/
theorem takeFront_refines (w : Worker) {q : Connections} {l' : List (Addr × ℤ)} (front : Option ℤ)
    (c : ℤ) (h : Sound maxSize s l) (hq : Holds q l') (hmax : q.maxSize = s.connectionRequests.maxSize)
    (hl : l.map Prod.snd = front.toList ++ l'.map Prod.snd) (hfront : front = none → l' = [])
    (hc : s.isServerExiting = false → front = some c) :
    let s' := takeFront w c
      { s with connectionRequests := q, popped := s.popped ++ front.toList }
    Sound maxSize s' l' ∧ Move maxSize (view s l) (.work w) (view s' l') := by
  intro s'
  have hqueued : ∀ c ∈ l', 0 ≤ c.2 := by
    intro c hm
    have hm' : c.2 ∈ l.map Prod.snd := by
      rw [hl]
      exact List.mem_append_right _ (List.mem_map_of_mem hm)
    obtain ⟨d,hd,hdc⟩ := List.mem_map.mp hm'
    exact hdc ▸ h.queued d hd
  have hpending : ∀ connfd, MainPc.Pending connfd s.main.signal → 0 ≤ connfd :=
    fun connfd hp => h.pending connfd (pending_signal hp)
  cases he : s.isServerExiting with
  | true =>
    have hs' : s' = { s with
        connectionRequests := q, popped := s.popped ++ front.toList, main := s.main.signal
        workers := Function.update s.workers w .left } := by
      simp [s',takeFront,he,Server.setWorker]
    rw [hs']
    refine ⟨⟨hq,hmax.trans h.maxSize_eq,h.running,hqueued,hpending⟩,?_⟩
    have hhead : (view s l).queue.head? = front ∧ (view s l).queue.tail = l'.map Prod.snd := by
      cases front with
      | none => simp [view,hl,hfront rfl]
      | some c => simp [view,hl]
    have hmove : Move maxSize (view s l) (.work w) _ := .leave w he
    rw [hhead.1,hhead.2] at hmove
    exact hmove
  | false =>
    have hs' : s' = { s with
        connectionRequests := q, popped := s.popped ++ front.toList, main := s.main.signal
        fulfilled := s.fulfilled ++ [c]
        workers := Function.update s.workers w (.fulfilling c) } := by
      simp [s',takeFront,he,Server.setWorker]
    rw [hs']
    refine ⟨⟨hq,hmax.trans h.maxSize_eq,h.running,hqueued,hpending⟩,?_⟩
    obtain rfl := hc he
    exact Move.fulfil (p := view s l) w c (l'.map Prod.snd) he hl

theorem workSection_refines {w : Worker} (fromWait : Bool) (h : Sound maxSize s l)
    (hw : s.workers w = if fromWait then .woken else .top) :
    ∃ l', Sound maxSize (workSection w fromWait s) l' ∧
      Move maxSize (view s l) (.work w) (view (workSection w fromWait s) l') := by
  cases l with
  | nil =>
    simp only [workSection,popConnection_nil h.holds,if_true,true_and]
    by_cases hwait : fromWait ∧ s.isServerExiting
    · have htake := takeFront_refines w none (-1) h h.holds rfl rfl
        (fun _ => rfl) (fun he => by simp [he] at hwait)
      rw [if_neg (not_not_intro hwait)]
      simp only [Option.toList_none,List.append_nil] at htake
      exact ⟨[],htake⟩
    · rw [if_pos hwait]
      refine ⟨[],⟨h.holds,h.maxSize_eq,h.running,h.queued,h.pending⟩,.sleep w rfl ?_⟩
      cases fromWait with
      | false => exact .inl hw
      | true =>
        have hexiting : s.isServerExiting = false := by simpa using hwait
        exact .inr ⟨hw,hexiting⟩
  | cons c l =>
    obtain ⟨a,c⟩ := c
    have hc : c ≠ -1 := by
      have hc : 0 ≤ c := h.queued (a,c) List.mem_cons_self
      omega
    obtain ⟨q,hq,hholds,hmax⟩ := popConnection_cons h.holds
    have htake := takeFront_refines w (some c) c h hholds hmax rfl
      (fun hn => by cases hn) (fun _ => rfl)
    simp only [workSection,hq,hc,false_and,if_false]
    exact ⟨l,htake⟩

theorem serverRequest_refines {connfd : ℤ} {wakes : Option Worker} (h : Sound maxSize s l)
    (hs : serverRequest nrThreads connfd wakes s = some s') :
    ∃ l', Sound maxSize s' l' ∧
      Move maxSize (view s l) (.serverRequest connfd wakes) (view s' l') := by
  obtain ⟨hidle,hs⟩ := Option.ite_none_left_eq_some.mp hs
  obtain ⟨hidle,hc⟩ : s.main = .idle ∧ 0 ≤ connfd := by simpa using hidle
  split at hs
  · obtain rfl := Option.some.inj hs
    exact ⟨l,h,.direct ..⟩
  · exact requestSection_refines _ h hc (by rw [hidle]; simp) hs

theorem serverExit_refines (h : Sound maxSize s l) (hs : serverExit nrThreads s = some s') :
    ∃ l', Sound maxSize s' l' ∧ Move maxSize (view s l) .serverExit (view s' l') := by
  obtain ⟨hidle,hs⟩ := Option.ite_none_left_eq_some.mp hs
  have hidle : s.main = .idle := by simpa using hidle
  split at hs
  · obtain rfl := Option.some.inj hs
    exact ⟨l,⟨h.holds,h.maxSize_eq,h.running,h.queued,fun _ hp => hp.elim⟩,.close hidle⟩
  · obtain rfl := Option.some.inj hs
    refine ⟨l,⟨h.holds,h.maxSize_eq,h.running,h.queued,fun _ hp => hp.elim⟩,
      .exit _ hidle (wakes_broadcast _) fun w hw => ?_⟩
    by_cases hwait : s.workers w = .waiting
    · exact WorkerPc.noConfusion ((if_pos hwait).symm.trans hw)
    · exact hwait ((if_neg hwait).symm.trans hw)

theorem work_refines {w : Worker} (h : Sound maxSize s l) (hs : work nrThreads w s = some s') :
    ∃ l', Sound maxSize s' l' ∧ Move maxSize (view s l) (.work w) (view s' l') := by
  obtain ⟨-,hs⟩ := Option.ite_none_right_eq_some.mp hs
  cases hw : s.workers w with
  | top =>
    rw [hw] at hs
    obtain rfl := Option.some.inj hs
    exact workSection_refines false h hw
  | woken =>
    rw [hw] at hs
    obtain rfl := Option.some.inj hs
    exact workSection_refines true h hw
  | waiting => rw [hw] at hs; cases hs
  | fulfilling => rw [hw] at hs; cases hs
  | left => rw [hw] at hs; cases hs

theorem step_refines {a : Action} (h : Sound maxSize s l) (hs : step nrThreads s a = some s') :
    ∃ l', Sound maxSize s' l' ∧ Move maxSize (view s l) a (view s' l') := by
  unfold step at hs
  rw [if_neg (not_not_intro h.running)] at hs
  cases a with
  | serverRequest connfd wakes => exact serverRequest_refines h hs
  | pushAgain wakes =>
    cases hmain : s.main with
    | woken connfd =>
      simp only [hmain] at hs
      have hc : 0 ≤ connfd := h.pending connfd (by rw [hmain]; rfl)
      exact requestSection_refines _ h hc (by rw [hmain]; simp) hs
    | idle => simp [hmain] at hs
    | waiting connfd => simp [hmain] at hs
    | exiting => simp [hmain] at hs
  | serverExit => exact serverExit_refines h hs
  | work w => exact work_refines h hs
  | fulfilled w =>
    cases hw : s.workers w with
    | fulfilling connfd =>
      simp only [hw,Option.some.injEq] at hs
      subst hs
      exact ⟨l,⟨h.holds,h.maxSize_eq,h.running,h.queued,h.pending⟩,.fulfilled w connfd hw⟩
    | top => simp [hw] at hs
    | waiting => simp [hw] at hs
    | woken => simp [hw] at hs
    | left => simp [hw] at hs
  | spuriousMain =>
    obtain rfl := Option.some.inj hs
    exact ⟨l,⟨h.holds,h.maxSize_eq,h.running,h.queued,fun c hp => h.pending c (pending_signal hp)⟩,
      .wakeMain⟩
  | spurious w =>
    obtain ⟨hw,hs⟩ := Option.ite_none_right_eq_some.mp hs
    obtain rfl := Option.some.inj hs
    exact ⟨l,⟨h.holds,h.maxSize_eq,h.running,h.queued,h.pending⟩,.wake w hw⟩

theorem sound_init (maxSize : ℕ) : Sound maxSize (serverInit maxSize) [] :=
  ⟨⟨linked_empty,rfl⟩,rfl,rfl,by simp,fun _ hp => hp.elim⟩

/-- A property of the pool that every move keeps holds in every run of the server. -/
theorem pool_invariant {ok : Server → Action → Prop} {P : Pool → Prop}
    (hinit : P (view (serverInit maxSize) []))
    (hstep : ∀ s l a p', Sound maxSize s l → P (view s l) → ok s a →
      Move maxSize (view s l) a p' → P p')
    (h : Reachable (serverInit maxSize) (step nrThreads) ok s) :
    ∃ l, Sound maxSize s l ∧ P (view s l) := by
  refine h.invariant (P := fun s => ∃ l, Sound maxSize s l ∧ P (view s l))
    ⟨[],sound_init maxSize,hinit⟩ ?_
  rintro s a s' ⟨l,hsound,hp⟩ hok hs
  obtain ⟨l',hsound',hmove⟩ := step_refines hsound hs
  exact ⟨l',hsound',hstep s l a _ hsound hp hok hmove⟩

end Refinement

/-! ## First in, first out -/

/-- The connections that were pushed are the ones that were popped and then the ones that wait. -/
structure Fifo (maxSize : ℕ) (p : Pool) : Prop where
  order : p.pushed = p.popped ++ p.queue
  bounded : p.queue.length ≤ maxSize
  fulfilled : p.fulfilled.Sublist p.popped

theorem Move.fifo {maxSize : ℕ} {p p' : Pool} {a : Action} (hm : Move maxSize p a p')
    (h : Fifo maxSize p) : Fifo maxSize p' := by
  cases hm with
  | push _ connfd ws _ hroom _ =>
    refine ⟨?_,?_,h.fulfilled⟩
    · rw [h.order,List.append_assoc]
    · rw [List.length_append]
      exact hroom
  | leave w _ =>
    refine ⟨?_,?_,h.fulfilled.trans (List.sublist_append_left ..)⟩
    · rw [h.order,List.append_assoc]
      cases p.queue <;> rfl
    · rw [List.length_tail]
      exact (Nat.sub_le ..).trans h.bounded
  | fulfil w front rest _ hqueue =>
    have hbounded := h.bounded
    rw [hqueue] at hbounded
    refine ⟨?_,(Nat.le_succ _).trans hbounded,h.fulfilled.append (List.Sublist.refl _)⟩
    rw [h.order,hqueue,List.append_assoc]
    rfl
  | _ => exact ⟨h.order,h.bounded,h.fulfilled⟩

/-- In every run the counter is the number of the linked elements, the queue is bounded, `tail` is
the last element, the connections are popped in the order in which they were pushed, no worker
fulfils one twice or before an earlier one, and the assertion never fails. -/
theorem connection_requests_fifo (nrThreads maxRequests : ℕ) {s : Server}
    (h : Reachable (serverInit maxRequests) (step nrThreads) (fun _ _ => True) s) :
    ∃ l : List (Addr × ℤ), Linked s.connectionRequests.elems l ∧
      s.connectionRequests.length = l.length ∧ l.length ≤ s.connectionRequests.maxSize ∧
      s.connectionRequests.maxSize = maxRequests ∧
      (s.connectionRequests.elems.head = none ↔ l = []) ∧
      s.connectionRequests.elems.tail = (addrs l).getLast? ∧
      s.pushed = s.popped ++ l.map Prod.snd ∧ s.fulfilled.Sublist s.popped ∧
      s.status = .running := by
  obtain ⟨l,hsound,hfifo⟩ := pool_invariant (P := Fifo maxRequests)
    ⟨rfl,Nat.zero_le _,List.Sublist.refl _⟩ (fun _ _ _ _ _ hp _ hm => hm.fifo hp) h
  have hlength : l.length ≤ maxRequests := by simpa [view] using hfifo.bounded
  refine ⟨l,hsound.holds.linked,hsound.holds.length,hsound.maxSize_eq ▸ hlength,hsound.maxSize_eq,
    ?_,hsound.holds.linked.last,hfifo.order,hfifo.fulfilled,hsound.running⟩
  rw [hsound.holds.linked.head_eq]
  simp

/-- Two connections are pushed, and a worker takes the first one. -/
def busyQueue : Server :=
  final (step 1) [.serverRequest 5 none,.serverRequest 6 none,.work 0] (serverInit 2)
    (by decide +kernel)

theorem busyQueue_fifo : busyQueue.fulfilled = [5] ∧
    ∃ l : List (Addr × ℤ), Linked busyQueue.connectionRequests.elems l ∧
      busyQueue.connectionRequests.length = l.length ∧
      l.length ≤ busyQueue.connectionRequests.maxSize ∧
      busyQueue.connectionRequests.maxSize = 2 ∧
      (busyQueue.connectionRequests.elems.head = none ↔ l = []) ∧
      busyQueue.connectionRequests.elems.tail = (addrs l).getLast? ∧
      busyQueue.pushed = busyQueue.popped ++ l.map Prod.snd ∧
      busyQueue.fulfilled.Sublist busyQueue.popped ∧ busyQueue.status = .running :=
  ⟨by decide +kernel,connection_requests_fifo 1 2 (reachable_final .init fun _ _ _ => trivial)⟩

end ConnectionPool
end OsLabs

import OsLabs.LinkedQueue

/-!
# The connection queue of the web server

The model of `connection_requests` in `webserver/server_thread.c`, and of the main thread and
the workers that share it under `mp`. A section under `mp`, up to a wait or to its end, is one
step, and a worker that leaves the section with a connection calls `do_server_request` in the
same step. `connfd` comes from `accept`, so it is never negative.
-/

namespace OsLabs
namespace ConnectionQueue

open LinkedQueue

/-! ### `struct queue` -/

/-- `head`, `tail` and the elements are in `elems`. -/
structure Connections where
  elems : Queue ℤ
  length : ℕ
  maxSize : ℕ

/-- The element is allocated before the test, and stays allocated if it is not linked. -/
def pushConnection (connfd : ℤ) (cnRqts : Connections) : Option (Bool × Connections) :=
  let newElem := cnRqts.elems.fresh
  let elems := alloc connfd cnRqts.elems
  if cnRqts.length < cnRqts.maxSize then do
    let elems ← linkLast newElem elems
    return (true,{ cnRqts with elems := elems, length := cnRqts.length+1 })
  else return (false,{ cnRqts with elems := elems })

/-- The `connfd` of the element that is popped and freed, or -1. -/
def popConnection (cnRqts : Connections) : Option (ℤ × Connections) := do
  let (front,elems) ← popFirst cnRqts.elems
  match front with
  | some connfd => return (connfd,{ cnRqts with elems := elems, length := cnRqts.length-1 })
  | none => return (-1,cnRqts)

def Connections.tailConnfd (cnRqts : Connections) : Option ℤ := do
  let tail ← cnRqts.elems.tail
  let elem ← cnRqts.elems.cells tail
  return elem.val

/-! ### The threads -/

abbrev Worker := ℕ

inductive MainPc
  | idle
  /-- in `pthread_cond_wait` on `cv_main` -/
  | waiting (connfd : ℤ)
  /-- woken up, and not yet the owner of `mp` -/
  | woken (connfd : ℤ)
  /-- in `server_exit` behind the broadcast -/
  | exiting
  deriving DecidableEq

inductive WorkerPc
  | top
  /-- in `pthread_cond_wait` on `cv_work` -/
  | waiting
  | woken
  /-- in `do_server_request` -/
  | fulfilling (connfd : ℤ)
  | left
  deriving DecidableEq

/-- `crashed` is an access through `NULL` or to a freed element. -/
inductive Status
  | running | crashed | assertionFailed
  deriving DecidableEq

/-- The last three lists are the `connfd`s that were pushed, that were popped, and that a worker
has passed to `do_server_request`. -/
structure Server where
  connectionRequests : Connections
  isServerExiting : Bool
  main : MainPc
  workers : Worker → WorkerPc
  status : Status
  pushed : List ℤ
  popped : List ℤ
  fulfilled : List ℤ

def Server.setWorker (w : Worker) (pc : WorkerPc) (s : Server) : Server :=
  { s with workers := Function.update s.workers w pc }

/-- The main thread is the only one that waits on `cv_main`. -/
def MainPc.signal : MainPc → MainPc
  | .waiting connfd => .woken connfd
  | pc => pc

/-- `pthread_cond_signal(&cv_work)` wakes a worker that waits, if there is one. -/
def signalWork (nrThreads : ℕ) (wakes : Option Worker) (s : Server) : Option Server :=
  match wakes with
  | some w => if s.workers w = .waiting then some (s.setWorker w .woken) else none
  | none => if ∀ w < nrThreads, s.workers w ≠ .waiting then some s else none

def broadcastWork (s : Server) : Server :=
  { s with workers := fun w => if s.workers w = .waiting then .woken else s.workers w }

/-! ### The sections under `mp` -/

/-- `server_request` from a push up to the wait or to the end. -/
def requestSection (nrThreads : ℕ) (connfd : ℤ) (wakes : Option Worker) (s : Server) :
    Option Server :=
  match pushConnection connfd s.connectionRequests with
  | none => some { s with status := .crashed }
  | some (false,q) => some { s with connectionRequests := q, main := .waiting connfd }
  | some (true,q) =>
    match q.tailConnfd with
    | none => some { s with status := .crashed }
    | some tail =>
      if connfd = tail then
        signalWork nrThreads wakes
          { s with connectionRequests := q, main := .idle, pushed := s.pushed ++ [connfd] }
      else some { s with status := .assertionFailed }

def takeFront (w : Worker) (front : ℤ) (s : Server) : Server :=
  if s.isServerExiting then { s with main := s.main.signal }.setWorker w .left
  else
    { s with main := s.main.signal, fulfilled := s.fulfilled ++ [front] }.setWorker w
      (.fulfilling front)

/-- `do_server_t_request` from a pop up to the wait or to the end. Only a worker that comes from
a wait looks at `isServerExiting` before it waits. -/
def workSection (w : Worker) (fromWait : Bool) (s : Server) : Server :=
  match popConnection s.connectionRequests with
  | none => { s with status := .crashed }
  | some (front,q) =>
    let popped := if front = -1 then s.popped else s.popped ++ [front]
    let s := { s with connectionRequests := q, popped := popped }
    if front = -1 ∧ ¬ (fromWait ∧ s.isServerExiting) then s.setWorker w .waiting
    else takeFront w front s

/-! ### Steps -/

/-- An action of the main thread names the worker that its signal wakes, if any. -/
inductive Action
  | serverRequest (connfd : ℤ) (wakes : Option Worker)
  /-- the main thread returns from its wait -/
  | pushAgain (wakes : Option Worker)
  | serverExit
  /-- a worker starts its section, or returns from its wait -/
  | work (w : Worker)
  /-- `do_server_request` returns -/
  | fulfilled (w : Worker)
  /-- a wait is over without a signal -/
  | spuriousMain
  | spurious (w : Worker)
  deriving DecidableEq

/-- Without workers the main thread calls `do_server_request` itself. -/
def serverRequest (nrThreads : ℕ) (connfd : ℤ) (wakes : Option Worker) (s : Server) :
    Option Server :=
  if s.main ≠ .idle ∨ connfd < 0 then none
  else if nrThreads = 0 then some s
  else requestSection nrThreads connfd wakes s

/-- Up to the end of the section; the threads are joined behind it. -/
def serverExit (nrThreads : ℕ) (s : Server) : Option Server :=
  if s.main ≠ .idle then none
  else if nrThreads = 0 then some { s with main := .exiting }
  else some (broadcastWork { s with isServerExiting := true, main := .exiting })

def work (nrThreads : ℕ) (w : Worker) (s : Server) : Option Server :=
  if w < nrThreads then
    match s.workers w with
    | .top => some (workSection w false s)
    | .woken => some (workSection w true s)
    | _ => none
  else none

def step (nrThreads : ℕ) (s : Server) (a : Action) : Option Server :=
  if s.status ≠ .running then none
  else match a with
  | .serverRequest connfd wakes => serverRequest nrThreads connfd wakes s
  | .pushAgain wakes =>
    match s.main with
    | .woken connfd => requestSection nrThreads connfd wakes s
    | _ => none
  | .serverExit => serverExit nrThreads s
  | .work w => work nrThreads w s
  | .fulfilled w =>
    match s.workers w with
    | .fulfilling _ => some (s.setWorker w .top)
    | _ => none
  | .spuriousMain => some { s with main := s.main.signal }
  | .spurious w => if s.workers w = .waiting then some (s.setWorker w .woken) else none

def serverInit (maxRequests : ℕ) : Server where
  connectionRequests := ⟨empty ℤ,0,maxRequests⟩
  isServerExiting := false
  main := .idle
  workers := fun _ => .top
  status := .running
  pushed := []
  popped := []
  fulfilled := []

/-! ## Pushing and popping -/

/-- The queue has the linked elements `l` and counts them. -/
structure Holds (q : Connections) (l : List (Addr × ℤ)) : Prop where
  linked : Linked q.elems l
  length : q.length = l.length

section Operations

variable {q : Connections} {l : List (Addr × ℤ)} {connfd : ℤ}

theorem Holds.tailConnfd {a : Addr} (h : Holds q (l ++ [(a,connfd)])) :
    q.tailConnfd = some connfd := by
  have htail : q.elems.tail = some a := h.linked.last.trans (by simp)
  have hcell := h.linked.cell_eq
  simp [Connections.tailConnfd,htail,hcell]

theorem pushConnection_room (h : Holds q l) (hlt : l.length < q.maxSize) (connfd : ℤ) :
    ∃ q', pushConnection connfd q = some (true,q') ∧ Holds q' (l ++ [(q.elems.fresh,connfd)]) ∧
      q'.maxSize = q.maxSize := by
  obtain ⟨elems,helems,hlinked,-⟩ := h.linked.append connfd
  refine ⟨{ q with elems := elems, length := q.length+1 },?_,⟨hlinked,?_⟩,rfl⟩
  · have hroom : q.length < q.maxSize := h.length ▸ hlt
    simp only [pushConnection,hroom,if_true,helems,Option.bind_eq_bind,Option.bind_some]
    rfl
  · simp [h.length]

theorem pushConnection_full (h : Holds q l) (hle : q.maxSize ≤ l.length) (connfd : ℤ) :
    ∃ q', pushConnection connfd q = some (false,q') ∧ Holds q' l ∧ q'.maxSize = q.maxSize := by
  refine ⟨{ q with elems := alloc connfd q.elems },?_,⟨h.linked.alloc connfd,h.length⟩,rfl⟩
  have hroom : ¬ q.length < q.maxSize := by rw [h.length]; exact Nat.not_lt.mpr hle
  simp only [pushConnection,hroom,if_false]
  rfl

theorem popConnection_nil (h : Holds q []) : popConnection q = some (-1,q) := by
  simp only [popConnection,h.linked.pop_nil,Option.bind_eq_bind,Option.bind_some]
  rfl

theorem popConnection_cons {a : Addr} (h : Holds q ((a,connfd)::l)) :
    ∃ q', popConnection q = some (connfd,q') ∧ Holds q' l ∧ q'.maxSize = q.maxSize := by
  obtain ⟨elems,helems,hlinked⟩ := h.linked.pop_cons
  refine ⟨{ q with elems := elems, length := q.length-1 },?_,⟨hlinked,?_⟩,rfl⟩
  · simp only [popConnection,helems,Option.bind_eq_bind,Option.bind_some]
    rfl
  · simp [h.length]

end Operations

end ConnectionQueue
end OsLabs

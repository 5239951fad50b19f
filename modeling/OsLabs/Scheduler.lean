import OsLabs.QueueFamily
import OsLabs.ThreadModel

/-!
# The abstract scheduler

What the thread package is for, without control points, signal masks and stacks:
thread slots, the places a thread can stand at, locks and the history. A `Move` is
one indivisible change of that picture, with everything the package has checked
when it makes it. What the package does in some runs and should not do is possible in
a scheduler with that `Defect` only.
-/

namespace OsLabs
namespace Scheduler

open ThreadModel QueueFamily

structure Slot where
  tState : ThreadState
  setcontextCalled : Bool
  killOnNextRun : Bool
  waitQueue : Option WaitQueue
  generation : ℕ
  /-- the call of the thread's own code that has not returned -/
  pending : Option Call

@[ext] structure Sched where
  slots : Tid → Slot
  current : Tid
  ready : List Tid
  available : List Tid
  waits : WaitQueue → List Tid
  locks : ℕ → Option Lock
  history : List Event

namespace Sched

def me (σ : Sched) : Slot := σ.slots σ.current

def inst (σ : Sched) (tid : Tid) : Inst := ⟨tid,(σ.slots tid).generation⟩

def self (σ : Sched) : Inst := σ.inst σ.current

def modify (tid : Tid) (f : Slot → Slot) (σ : Sched) : Sched :=
  { σ with slots := fun i => if i = tid then f (σ.slots i) else σ.slots i }

def record (e : Event) (σ : Sched) : Sched := { σ with history := e :: σ.history }

def setLock (lock : ℕ) (l : Option Lock) (σ : Sched) : Sched :=
  { σ with locks := fun i => if i = lock then l else σ.locks i }

def Acquired (σ : Sched) (lock : ℕ) : Prop := ∃ l, σ.locks lock = some l ∧ l.isAcquired = true

def Owns (σ : Sched) (lock : ℕ) : Prop :=
  ∃ l, σ.locks lock = some l ∧ l.isAcquired = true ∧ l.acquiredBy = σ.current

/-- The first threads of a wait queue become ready, in order. -/
def wake (waker : Waker) (queue : WaitQueue) (l rest : List Tid) (σ : Sched) : Sched :=
  { σ with
    ready := σ.ready ++ l
    waits := fun q => if q = queue then rest else σ.waits q
    history := (l.map fun t => Event.woken (σ.inst t) queue waker).reverse ++ σ.history }

/-- The running thread goes to the queue it asked for, or to the ready queue, and the
ready thread `x` runs. -/
def switch (x : Tid) (σ : Sched) : Sched :=
  { σ with
    slots := fun t =>
      if t = x then { σ.slots t with tState := .running }
      else if t = σ.current then
        { σ.slots t with tState := .ready, setcontextCalled := true, waitQueue := none }
      else σ.slots t
    current := x
    ready := match σ.me.waitQueue with
      | none => σ.ready.erase x ++ [σ.current]
      | some _ => σ.ready.erase x
    waits := match σ.me.waitQueue with
      | none => σ.waits
      | some queue => fun q => if q = queue then σ.waits queue ++ [σ.current] else σ.waits q
    history := match σ.me.waitQueue with
      | none => σ.history
      | some queue => .slept σ.self queue :: σ.history }

/-- The running thread ends, its waiters become ready and `next` runs. -/
def exit (marked : Bool) (next : Tid) (rest : List Tid) (σ : Sched) : Sched :=
  { σ with
    slots := fun t =>
      if t = next then { σ.slots t with tState := .running }
      else if t = σ.current then
        { σ.slots t with
          tState := .notAssigned, killOnNextRun := false, waitQueue := none, pending := none }
      else σ.slots t
    current := next
    ready := rest
    available := σ.current :: σ.available
    waits := fun q => if q = .tWait σ.current then [] else σ.waits q
    history := ((σ.waits (.tWait σ.current)).map fun t =>
        Event.woken (σ.inst t) (.tWait σ.current) .threadExit).reverse ++
      .exited σ.self marked :: σ.history }

def create (id : Tid) (rest : List Tid) (σ : Sched) : Sched :=
  { σ with
    slots := fun t =>
      if t = id then
        { σ.slots t with
          tState := .ready, generation := (σ.slots t).generation+1, pending := none }
      else σ.slots t
    ready := σ.ready ++ [id]
    available := rest
    history := .created ⟨id,(σ.slots id).generation+1⟩ :: σ.history }

/-- The call in progress returns. -/
def ret (c : Call) (v : ℤ) (enabled : Bool) (σ : Sched) : Sched :=
  (σ.record (.ret σ.self c v enabled)).modify σ.current fun t => { t with pending := none }

end Sched

open Sched

/-- The events since the last call of the instance. -/
def inCall (i : Inst) (h : List Event) : List Event :=
  h.takeWhile fun e => match e with
    | .call j _ _ => j != i
    | _ => true

/-- What the package does in some runs and a scheduler should not do. -/
inductive Defect
  /-- `thread_yield` takes a ready thread out of its queue and does not run it -/
  | lose
  /-- `thread_create` takes an identifier and has no memory for a stack -/
  | forget
  /-- `wait_queue_destroy` takes a waiting thread out of its queue -/
  | discard
  /-- `thread_wait` returns without having slept -/
  | earlyWait
  /-- `cv_wait` goes on without having slept on the cv -/
  | earlyCvWait
  /-- `thread_create` hands out an identifier that a lock names as its owner -/
  | recycle
  /-- `lock_acquire` waits for a lock that a thread is about to destroy -/
  | contended
  deriving DecidableEq

/-- The queue that a call must have slept on before it may return. -/
def SleepsOn (D : Set Defect) : Call → WaitQueue → Prop
  | .threadWait tid, queue => .earlyWait ∉ D ∧ queue = .tWait tid
  | .cvWait cv _, queue => .earlyCvWait ∉ D ∧ queue = .waitOnCv cv
  | _, _ => False

/-- The call in progress has slept where it should or marked its target, and nobody waits for a
lock that it is about to destroy. -/
structure Sched.SettledAt (D : Set Defect) (σ : Sched) (t : Tid) : Prop where
  slept : ∀ c queue, (σ.slots t).pending = some c → SleepsOn D c queue →
    Event.slept (σ.inst t) queue ∈ inCall (σ.inst t) σ.history
  marked : ∀ tid, (σ.slots t).pending = some (.threadKill tid) →
    ∃ g, Event.killed (σ.inst t) ⟨tid,g⟩ ∈ inCall (σ.inst t) σ.history
  unwaited : .contended ∉ D → ∀ lock, (σ.slots t).pending = some (.lockDestroy lock) →
    σ.waits (.waitOnLock lock) = []

/-- No thread is about to destroy the lock. -/
def Sched.Kept (D : Set Defect) (σ : Sched) (lock : ℕ) : Prop :=
  .contended ∈ D ∨ ∀ t, (σ.slots t).pending ≠ some (.lockDestroy lock)

/-- Returns that need no further change of the state: the ones of `lock_acquire`, of
`cv_wait` and of `lock_destroy` are part of other moves. -/
def PlainReturn (D : Set Defect) (σ : Sched) : Call → ℤ → Prop
  | .lockAcquire _, _ => False
  | .cvWait _ _, _ => False
  | .lockDestroy _, _ => False
  | .threadKill tid, v => v = tid → σ.SettledAt D σ.current
  | .threadWait tid, v => 0 ≤ tid → v = tid → σ.SettledAt D σ.current
  | _, _ => True

/-- The queues that can have waiting threads when they are destroyed. -/
def Discards (D : Set Defect) : WaitQueue → Prop
  | .tWait _ => False
  | .waitOnLock _ => .contended ∈ D
  | _ => True

/-- Who calls `thread_wakeup` on a queue outside `thread_exit`. -/
def WakesQueue (waker : Waker) : WaitQueue → Prop
  | .tWait _ => False
  | .waitOnLock _ => waker = .lockRelease
  | .waitOnCv _ => waker = .cvSignal ∨ waker = .cvBroadcast
  | .created _ => waker = .threadWakeup

/-- The calls that end by acquiring the lock. -/
def Acquires (lock : ℕ) : Call → Prop
  | .lockAcquire l => l = lock
  | .cvWait _ l => l = lock
  | _ => False

/-- The calls that free the lock. -/
def Releases (lock : ℕ) : Call → Prop
  | .lockRelease l => l = lock
  | .cvWait _ l => l = lock
  | _ => False

/-- Where a call suspends the running thread. -/
def Suspends (D : Set Defect) (σ : Sched) : Call → Option WaitQueue → Prop
  | .threadWait tid, queue => queue = some (.tWait tid) ∧ (σ.slots tid).tState ≠ .notAssigned
  | .lockAcquire lock, queue => queue = some (.waitOnLock lock) ∧ σ.Kept D lock
  | .cvWait cv lock, queue => queue = some (.waitOnCv cv) ∨
      queue = some (.waitOnLock lock) ∧ σ.Kept D lock ∧ σ.SettledAt D σ.current
  | .threadKill _, _ => σ.SettledAt D σ.current
  | .threadSleep n, queue => queue = n.map .created
  | .lockDestroy lock, _ => .contended ∉ D → σ.waits (.waitOnLock lock) = []
  | _, _ => True

/-- The indivisible changes of a scheduler that may show the defects `D`. -/
inductive Move (D : Set Defect) : Sched → Sched → Prop
  | call {σ} (c : Call) (enabled : Bool) : σ.me.killOnNextRun = false → σ.me.pending = none →
      Move D σ ((σ.record (.call σ.self c enabled)).modify σ.current
        fun t => { t with pending := some c })
  | own {σ} : σ.me.killOnNextRun = false → Move D σ (σ.record (.own σ.self))
  | ret {σ} (c : Call) (v : ℤ) (enabled : Bool) : σ.me.killOnNextRun = false →
      σ.me.pending = some c → PlainReturn D σ c v → Move D σ (σ.ret c v enabled)
  /-- `cv_wait` by a thread that does not own the lock -/
  | refuse {σ} (cv lock : ℕ) (l : Lock) (v : ℤ) (enabled : Bool) : σ.me.killOnNextRun = false →
      σ.me.pending = none → σ.locks lock = some l → ¬ σ.Owns lock →
      Move D σ ((σ.record (.call σ.self (.cvWait cv lock) enabled)).record
        (.ret σ.self (.cvWait cv lock) v enabled))
  | wake {σ} (waker : Waker) (queue : WaitQueue) (l rest : List Tid) :
      σ.waits queue = l ++ rest → WakesQueue waker queue → Move D σ (σ.wake waker queue l rest)
  | request {σ} (queue : WaitQueue) :
      (∀ lock, queue = .waitOnLock lock →
        σ.Acquired lock ∧ ∃ c, σ.me.pending = some c ∧ Acquires lock c) →
      Move D σ (σ.modify σ.current fun t => { t with waitQueue := some queue })
  | switch {σ} (x : Tid) : x ∈ σ.ready → σ.me.killOnNextRun = false →
      σ.me.setcontextCalled = false →
      (∀ c, σ.me.pending = some c → Suspends D σ c σ.me.waitQueue) → Move D σ (σ.switch x)
  /-- the thread goes on after a switch back to it -/
  | resume {σ} : σ.me.killOnNextRun = false → σ.me.setcontextCalled = true →
      Move D σ (σ.modify σ.current fun t => { t with setcontextCalled := false })
  | exit {σ} (marked : Bool) (next : Tid) (rest : List Tid) : σ.me.killOnNextRun = marked →
      σ.ready ++ σ.waits (.tWait σ.current) = next::rest → Move D σ (σ.exit marked next rest)
  | create {σ} (id : Tid) (rest : List Tid) (stack : Bool) : σ.available = id::rest →
      σ.me.pending = some (.threadCreate stack) →
      (.recycle ∈ D ∨ ∀ lock l, σ.locks lock = some l → l.isAcquired = true → l.acquiredBy ≠ id) →
      Move D σ (σ.create id rest)
  | kill {σ} (tid : Tid) : tid ≠ σ.current → 0 ≤ tid → tid < threadMaxThreads →
      (σ.slots tid).tState ≠ .notAssigned → σ.me.killOnNextRun = false →
      σ.me.pending = some (.threadKill tid) →
      Move D σ ((σ.modify tid fun t => { t with killOnNextRun := true }).record
        (.killed σ.self (σ.inst tid)))
  | acquire {σ} (lock : ℕ) (l : Lock) (c : Call) (v : ℤ) (enabled : Bool) : σ.locks lock = some l →
      l.isAcquired = false → σ.me.killOnNextRun = false → σ.me.pending = some c →
      Acquires lock c → σ.SettledAt D σ.current →
      Move D σ
        (((σ.setLock lock (some ⟨true,σ.current⟩)).record (.acquired σ.self lock)).ret c v enabled)
  | passed {σ} (lock : ℕ) : σ.me.killOnNextRun = false → σ.Owns lock →
      Move D σ (σ.record (.passed σ.self lock))
  | unlock {σ} (lock : ℕ) (c : Call) : σ.me.killOnNextRun = false → σ.Owns lock →
      σ.waits (.waitOnLock lock) = [] → σ.me.pending = some c → Releases lock c →
      (∀ lock, σ.me.waitQueue ≠ some (.waitOnLock lock)) →
      Move D σ ((σ.setLock lock (some ⟨false,-1⟩)).record (.released σ.self lock))
  | free {σ} (lock : ℕ) (v : ℤ) (enabled : Bool) : σ.me.killOnNextRun = false →
      σ.me.pending = some (.lockDestroy lock) → σ.waits (.waitOnLock lock) = [] →
      Move D σ ((σ.setLock lock none).ret (.lockDestroy lock) v enabled)
  | lose {σ} (x : Tid) : .lose ∈ D → x ∈ σ.ready →
      (σ.me.setcontextCalled = true ∨ σ.me.killOnNextRun = true) →
      Move D σ { σ with ready := σ.ready.erase x }
  | forget {σ} (id : Tid) (rest : List Tid) : .forget ∈ D → σ.available = id::rest →
      Move D σ { σ with available := rest }
  | discard {σ} (queue : WaitQueue) (tid : Tid) (rest : List Tid) : .discard ∈ D →
      Discards D queue → σ.waits queue = tid::rest →
      Move D σ ({ σ with waits := fun q => if q = queue then rest else σ.waits q
        }.record (.discarded tid queue))

abbrev Moves (D : Set Defect) : Sched → Sched → Prop := Relation.ReflTransGen (Move D)

/-! ### Places -/

inductive Place
  | running | available | ready | waiting (queue : WaitQueue)

def places (run available ready : List Tid) (waits : WaitQueue → List Tid) : Place → List Tid
  | .running => run
  | .available => available
  | .ready => ready
  | .waiting queue => waits queue

def Sched.place (σ : Sched) : Place → List Tid :=
  places [σ.current] σ.available σ.ready σ.waits

section moved

variable {r r' a a' d d' : List Tid} {w w' : WaitQueue → List Tid} {l : List Tid}

theorem moved_ready_running (h : d.Perm (l ++ d')) :
    Moved l .ready .running (places r a d w) (places (l ++ r) a d' w) where
  ne := by simp
  source := h
  target := List.Perm.refl _
  rest := by rintro (_ | _ | _ | _) <;> simp [places]

theorem moved_running_ready : Moved l .running .ready (places (r ++ l) a d w)
    (places r a (d ++ l) w) where
  ne := by simp
  source := List.perm_append_comm
  target := List.perm_append_comm
  rest := by rintro (_ | _ | _ | _) <;> simp [places]

theorem moved_running_available : Moved l .running .available (places l a d w)
    (places [] (l ++ a) d w) where
  ne := by simp
  source := by simp [places]
  target := List.Perm.refl _
  rest := by rintro (_ | _ | _ | _) <;> simp [places]

theorem moved_running_waiting (queue : WaitQueue) :
    Moved l .running (.waiting queue) (places (r ++ l) a d w)
      (places r a d fun q => if q = queue then w queue ++ l else w q) where
  ne := by simp
  source := List.perm_append_comm
  target := by simpa [places] using List.perm_append_comm
  rest := by rintro (_ | _ | _ | _) <;> simp +contextual [places]

theorem moved_waiting_ready (queue : WaitQueue) (rest : List Tid) (h : w queue = l ++ rest) :
    Moved l (.waiting queue) .ready (places r a d w)
      (places r a (d ++ l) fun q => if q = queue then rest else w q) where
  ne := by simp
  source := by simp [places,h]
  target := List.perm_append_comm
  rest := by rintro (_ | _ | _ | _) <;> simp +contextual [places]

theorem moved_available_ready : Moved l .available .ready (places r (l ++ a) d w)
    (places r a (d ++ l) w) where
  ne := by simp
  source := List.Perm.refl _
  target := List.perm_append_comm
  rest := by rintro (_ | _ | _ | _) <;> simp [places]

end moved

/-- The defects by which a thread or an identifier stands nowhere afterwards. -/
def losses : Set Defect := {.lose,.forget,.discard}

/-- A move only carries threads from place to place, or shows a loss. -/
theorem Move.places {D : Set Defect} {σ σ' : Sched} (h : Move D σ σ') :
    Rearranged σ.place σ'.place ∨
      (∃ d ∈ losses, d ∈ D) ∧ ∀ p, (σ'.place p).Sublist (σ.place p) := by
  cases h with
  | call | own | ret | refuse | request | resume | kill | acquire | passed | unlock | free =>
    exact .inl .refl
  | wake waker queue l rest hq _ =>
    exact .inl (moved_waiting_ready queue rest hq).rearranged
  | switch x hx _ _ _ =>
    have h₁ := (moved_ready_running (r := [σ.current]) (a := σ.available) (w := σ.waits)
      (l := [x]) (List.perm_cons_erase hx)).rearranged
    refine .inl (h₁.trans ?_)
    cases hq : σ.me.waitQueue with
    | none =>
      simpa [Sched.place,Sched.switch,hq] using
        (moved_running_ready (r := [x]) (l := [σ.current])).rearranged
    | some queue =>
      simpa [Sched.place,Sched.switch,hq] using
        (moved_running_waiting (r := [x]) (l := [σ.current]) queue).rearranged
  | exit marked next rest _ hr =>
    have h₁ := (moved_running_available (l := [σ.current]) (a := σ.available) (d := σ.ready)
      (w := σ.waits)).rearranged
    have h₂ := (moved_waiting_ready (r := []) (a := σ.current::σ.available) (d := σ.ready)
      (w := σ.waits) (.tWait σ.current) [] (List.append_nil _).symm).rearranged
    have h₃ := (moved_ready_running (r := []) (a := σ.current::σ.available)
      (w := fun q => if q = .tWait σ.current then [] else σ.waits q) (l := [next])
      (List.Perm.of_eq hr)).rearranged
    exact .inl (h₁.trans (h₂.trans h₃))
  | create id rest _ ha _ _ =>
    have h₁ := (moved_available_ready (r := [σ.current]) (a := rest) (d := σ.ready)
      (w := σ.waits) (l := [id])).rearranged
    exact .inl (by simpa [Sched.place,Sched.create,ha] using h₁)
  | lose x hl _ _ =>
    refine .inr ⟨⟨_,by simp [losses],hl⟩,?_⟩
    rintro (_ | _ | _ | q)
    exacts [.refl _,.refl _,List.erase_sublist,.refl _]
  | forget id rest hl ha =>
    refine .inr ⟨⟨_,by simp [losses],hl⟩,?_⟩
    rintro (_ | _ | _ | q)
    exacts [.refl _,by simp [Sched.place,Scheduler.places,ha],.refl _,.refl _]
  | discard queue tid rest hl _ hq =>
    refine .inr ⟨⟨_,by simp [losses],hl⟩,?_⟩
    rintro (_ | _ | _ | q)
    · exact .refl _
    · exact .refl _
    · exact .refl _
    · by_cases h : q = queue
      · subst h; simp [Sched.place,Scheduler.places,Sched.record,hq]
      · simp [Sched.place,Scheduler.places,Sched.record,h]

/-- A thread that stands nowhere is lost for good. -/
theorem Move.placed {D : Set Defect} {σ σ' : Sched} (h : Move D σ σ') {t : Tid}
    (ht : ∃ p, t ∈ σ'.place p) : ∃ p, t ∈ σ.place p := by
  rcases h.places with hp | ⟨-,hp⟩
  · exact (hp.exists_mem t).mp ht
  · obtain ⟨p,ht⟩ := ht
    exact ⟨p,(hp p).subset ht⟩

end Scheduler
end OsLabs

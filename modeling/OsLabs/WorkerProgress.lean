import OsLabs.ConnectionPool
import OsLabs.Draining

/-!
# The workers of the web server make progress

A push signals one worker that waits, and a pop signals the main thread. As long as the
server is not exiting that is enough: while a worker waits, as many workers have been
woken up as connections wait, and the main thread waits only for a full queue. So the
workers, in whatever order they run, get every pushed connection done in a bounded number of
steps, and then the main thread does not wait either.
-/

namespace OsLabs
namespace WorkerProgress

open ConnectionQueue ConnectionPool Draining Transition

variable {n maxSize : ℕ} {ws : Worker → WorkerPc} {w : Worker} {pc : WorkerPc}

def isWoken : WorkerPc → ℕ
  | .woken => 1
  | _ => 0

/-! ### Signals -/

/-- `pthread_cond_signal(&cv_work)`: a worker that waits is woken up, or there is none. -/
def Signalled (n : ℕ) (ws ws' : Worker → WorkerPc) : Prop :=
  (∃ w, ws w = .waiting ∧ ws' = Function.update ws w .woken) ∨ (∀ w < n, ws w ≠ .waiting) ∧ ws' = ws

section steps

variable {s s' : Server} {a : Action}

theorem signalWork_signalled {wakes : Option Worker} (h : signalWork n wakes s = some s') :
    Signalled n s.workers s'.workers := by
  cases wakes with
  | none =>
    obtain ⟨hn,h⟩ := Option.ite_none_right_eq_some.mp h
    obtain rfl := Option.some.inj h
    exact .inr ⟨hn,rfl⟩
  | some w =>
    obtain ⟨hw,h⟩ := Option.ite_none_right_eq_some.mp h
    obtain rfl := Option.some.inj h
    exact .inl ⟨w,hw,rfl⟩

/-- A section of `server_request` that pushes signals. -/
theorem requestSection_signalled {connfd : ℤ} {wakes : Option Worker}
    (h : requestSection n connfd wakes s = some s') :
    s'.pushed = s.pushed ∨ Signalled n s.workers s'.workers := by
  simp only [requestSection] at h
  split at h
  · cases h; exact .inl rfl
  · cases h; exact .inl rfl
  · split at h
    · cases h; exact .inl rfl
    · split at h
      · rename_i q _ _ _ _ _
        exact .inr (signalWork_signalled (s := { s with
          connectionRequests := q, main := .idle, pushed := s.pushed ++ [connfd] }) h)
      · cases h; exact .inl rfl

theorem workSection_pushed (w : Worker) (fromWait : Bool) (s : Server) :
    (workSection w fromWait s).pushed = s.pushed := by
  simp only [workSection,takeFront]
  split
  · rfl
  split
  · rfl
  split <;> rfl

/-- What a step can push, and who can work. -/
theorem step_signalled (h : step n s a = some s') :
    (s'.pushed = s.pushed ∨ Signalled n s.workers s'.workers) ∧ ∀ w, a = .work w → w < n := by
  unfold step at h
  split at h
  · cases h
  cases a with
  | serverRequest connfd wakes =>
    refine ⟨?_,fun _ h => by cases h⟩
    obtain ⟨-,h⟩ := Option.ite_none_left_eq_some.mp h
    split at h
    · cases h; exact .inl rfl
    · exact requestSection_signalled h
  | pushAgain wakes =>
    refine ⟨?_,fun _ h => by cases h⟩
    cases hm : s.main with
    | woken connfd => rw [hm] at h; exact requestSection_signalled h
    | _ => simp [hm] at h
  | serverExit =>
    refine ⟨.inl ?_,fun _ h => by cases h⟩
    obtain ⟨-,h⟩ := Option.ite_none_left_eq_some.mp h
    split at h <;> cases h <;> rfl
  | work w =>
    obtain ⟨hw,h⟩ := Option.ite_none_right_eq_some.mp h
    refine ⟨.inl ?_,fun v hv => by cases hv; exact hw⟩
    cases hpc : s.workers w with
    | top => rw [hpc] at h; cases h; exact workSection_pushed w false s
    | woken => rw [hpc] at h; cases h; exact workSection_pushed w true s
    | _ => simp [hpc] at h
  | fulfilled w =>
    refine ⟨.inl ?_,fun _ h => by cases h⟩
    cases hpc : s.workers w with
    | fulfilling connfd => simp only [hpc] at h; cases h; rfl
    | _ => simp [hpc] at h
  | spuriousMain => cases h; exact ⟨.inl rfl,fun _ h => by cases h⟩
  | spurious w =>
    obtain ⟨-,h⟩ := Option.ite_none_right_eq_some.mp h
    cases h
    exact ⟨.inl rfl,fun _ h => by cases h⟩

end steps

/-! ### The invariant -/

/-- Signals suffice: whoever waits has no work, or has been replaced by a woken worker. -/
structure Lively (n maxSize : ℕ) (p : Pool) : Prop where
  idle : ∀ w, n ≤ w → p.workers w = .top
  stays : p.exiting = false → ∀ w, p.workers w ≠ .left
  enough : p.exiting = false → ∀ w, p.workers w = .waiting →
    p.queue.length ≤ total n isWoken p.workers
  full : ∀ connfd, p.main = .waiting connfd → maxSize ≤ p.queue.length
  done : p.exiting = false → p.fulfilled = p.popped

theorem Lively.lt {p : Pool} (h : Lively n maxSize p) (hw : p.workers w ≠ .top) : w < n := by
  by_contra hn
  exact hw (h.idle w (Nat.le_of_not_lt hn))

theorem idle_update {ws : Worker → WorkerPc} (h : ∀ v, n ≤ v → ws v = .top) (hw : w < n)
    (pc : WorkerPc) : ∀ v, n ≤ v → Function.update ws w pc v = .top := fun v hv => by
  rw [Function.update_of_ne (Nat.lt_of_lt_of_le hw hv).ne']
  exact h v hv

/-- A worker who stands where nobody has just gone stood there before. -/
theorem eq_of_update {v : Worker} {pc' : WorkerPc} (h : Function.update ws w pc v = pc')
    (hpc : pc ≠ pc') : ws v = pc' := by
  by_cases hv : v = w
  · subst hv
    exact absurd ((Function.update_self ..).symm.trans h) hpc
  · rwa [Function.update_of_ne hv] at h

theorem update_ne {pc' : WorkerPc} (h : ∀ v, ws v ≠ pc') (hpc : pc ≠ pc') (v : Worker) :
    Function.update ws w pc v ≠ pc' := fun he => h v (eq_of_update he hpc)

/-- A move that signals on a push, by a worker of the pool, keeps the invariant. -/
theorem move_lively {p p' : Pool} {a : Action} (hm : Move maxSize p a p') (h : Lively n maxSize p)
    (hs : p'.pushed = p.pushed ∨ Signalled n p.workers p'.workers) (ha : ∀ w, a = .work w → w < n) :
    Lively n maxSize p' := by
  cases hm with
  | direct connfd wakes => exact h
  | block _ connfd hmain hfull =>
    exact ⟨h.idle,h.stays,h.enough,fun _ _ => hfull,h.done⟩
  | push _ connfd ws hmain hroom hws =>
    have hs : Signalled n p.workers ws := hs.resolve_left fun he => by
      have hl := congrArg List.length he
      simp at hl
    have hfull : ∀ c, MainPc.idle = .waiting c → maxSize ≤ (p.queue ++ [connfd]).length :=
      fun c hc => by cases hc
    rcases hs with ⟨w,hw,rfl⟩ | ⟨hnone,rfl⟩
    · have hlt : w < n := h.lt (by rw [hw]; simp)
      refine ⟨idle_update h.idle hlt _,fun he => update_ne (h.stays he) (by simp),fun he v hv => ?_,
        hfull,h.done⟩
      have ht := total_update isWoken hlt p.workers .woken
      have hq := h.enough he w hw
      rw [hw] at ht
      simp only [isWoken,List.length_append,List.length_singleton] at ht ⊢
      omega
    · refine ⟨h.idle,h.stays,fun he v hv => absurd hv (hnone v (h.lt (by rw [hv]; simp))),hfull,h.done⟩
  | close hmain => exact ⟨h.idle,h.stays,h.enough,fun _ hc => (by cases hc),h.done⟩
  | exit ws hmain hws hall =>
    refine ⟨fun w hw => ?_,fun he => (by cases he),fun he => (by cases he),fun _ hc => (by cases hc),
      fun he => (by cases he)⟩
    rcases hws w with hw' | ⟨hw',-⟩
    · exact hw'.trans (h.idle w hw)
    · simp [h.idle w hw] at hw'
  | sleep w hqueue hw =>
    refine ⟨idle_update h.idle (ha w rfl) _,fun he => update_ne (h.stays he) (by simp),
      fun he v hv => ?_,h.full,h.done⟩
    simp [hqueue]
  | leave w hexiting =>
    refine ⟨idle_update h.idle (ha w rfl) _,fun he => ?_,fun he => ?_,fun c hc => ?_,fun he => ?_⟩
    · simp [hexiting] at he
    · simp [hexiting] at he
    · cases hmain : p.main <;> simp [hmain,MainPc.signal] at hc
    · simp [hexiting] at he
  | fulfil w front rest hexiting hqueue =>
    refine ⟨idle_update h.idle (ha w rfl) _,fun he => update_ne (h.stays he) (by simp),
      fun he v hv => ?_,fun c hc => ?_,fun he => ?_⟩
    · have ht := total_update isWoken (ha w rfl) p.workers (.fulfilling front)
      have hq := h.enough he v (eq_of_update hv (by simp))
      rw [hqueue,List.length_cons] at hq
      have hone : isWoken (p.workers w) ≤ 1 := by cases p.workers w <;> simp [isWoken]
      simp only [isWoken] at ht hone ⊢
      omega
    · cases hmain : p.main <;> simp [hmain,MainPc.signal] at hc
    · rw [h.done he]
  | fulfilled w connfd hw =>
    have hlt : w < n := h.lt (by rw [hw]; simp)
    refine ⟨idle_update h.idle hlt _,fun he => update_ne (h.stays he) (by simp),fun he v hv => ?_,
      h.full,h.done⟩
    have ht := total_update isWoken hlt p.workers .top
    have hq := h.enough he v (eq_of_update hv (by simp))
    rw [hw] at ht
    simp only [isWoken] at ht ⊢
    omega
  | wakeMain =>
    refine ⟨h.idle,h.stays,h.enough,fun c hc => ?_,h.done⟩
    cases hmain : p.main <;> simp [hmain,MainPc.signal] at hc
  | wake w hw =>
    have hlt : w < n := h.lt (by rw [hw]; simp)
    refine ⟨idle_update h.idle hlt _,fun he => update_ne (h.stays he) (by simp),fun he v hv => ?_,
      h.full,h.done⟩
    have ht := total_update isWoken hlt p.workers .woken
    have hq := h.enough he w hw
    rw [hw] at ht
    simp only [isWoken] at ht ⊢
    omega

/-- In every state of every run, whatever the order of the steps. -/
theorem lively_of_reachable {ok : Server → Action → Prop} {s : Server}
    (h : Reachable (serverInit maxSize) (step n) ok s) :
    ∃ l, Sound maxSize s l ∧ Lively n maxSize (view s l) ∧ Fifo maxSize (view s l) := by
  refine h.invariant (P := fun s => ∃ l, Sound maxSize s l ∧ Lively n maxSize (view s l) ∧
    Fifo maxSize (view s l)) ⟨[],sound_init maxSize,?_,rfl,Nat.zero_le _,List.Sublist.refl _⟩ ?_
  · exact ⟨fun _ _ => rfl,fun _ w hw => (by cases hw),fun _ w hw => (by cases hw),
      fun _ hc => (by cases hc),fun _ => rfl⟩
  · rintro s a s' ⟨l,hsound,hlively,hfifo⟩ - hs
    obtain ⟨l',hsound',hmove⟩ := step_refines hsound hs
    obtain ⟨hsig,hlt⟩ := step_signalled hs
    exact ⟨l',hsound',move_lively hmove hlively hsig hlt,hmove.fifo hfifo⟩

/-- No wake-up is lost: while the server is not exiting and a worker waits for work, as many workers
have been woken up and have not looked at the queue yet as connections wait, and the main thread
waits only while the queue is full. -/
theorem signals_suffice {nrThreads maxRequests : ℕ} {s : Server}
    (h : Reachable (serverInit maxRequests) (step nrThreads) (fun _ _ => True) s)
    (he : s.isServerExiting = false) :
    (∀ w, s.workers w = .waiting → s.connectionRequests.length ≤ total nrThreads isWoken s.workers) ∧
      ∀ connfd, s.main = .waiting connfd → s.connectionRequests.length = maxRequests := by
  obtain ⟨l,hsound,hlively,hfifo⟩ := lively_of_reachable h
  have hlength : (view s l).queue.length = s.connectionRequests.length :=
    (List.length_map ..).trans hsound.holds.length.symm
  refine ⟨fun w hw => hlength ▸ hlively.enough he w hw,fun connfd hc => ?_⟩
  exact Nat.le_antisymm (hlength ▸ hfifo.bounded) (hlength ▸ hlively.full connfd hc)

/-- One worker waits, two connections are pushed, and the second push finds nobody to wake up. -/
def oneWoken : Server :=
  final (step 1) [.work 0,.serverRequest 5 (some 0),.serverRequest 6 none,.serverRequest 7 none]
    (serverInit 2) (by decide +kernel)

theorem oneWoken_suffices : oneWoken.main = .waiting 7 ∧ oneWoken.connectionRequests.length = 2 := by
  have hmain : oneWoken.main = .waiting 7 := by decide +kernel
  have hs := @signals_suffice 1 2 oneWoken (reachable_final .init fun _ _ _ => trivial)
    (by decide +kernel)
  exact ⟨hmain,hs.2 7 hmain⟩

/-! ### Draining -/

/-- A main thread that has been woken up finds room, and before `server_exit` it is the only one
that leaves. -/
structure Roomy (maxSize : ℕ) (p : Pool) : Prop where
  room : ∀ connfd, p.main = .woken connfd → p.queue.length < maxSize
  exiting : p.exiting = true → p.main = .exiting

theorem move_roomy {p p' : Pool} {a : Action} (hm : Move maxSize p a p') (h : Roomy maxSize p)
    (hb : p.queue.length ≤ maxSize) (ha : a ≠ .spuriousMain) : Roomy maxSize p' := by
  cases hm with
  | direct => exact h
  | block _ connfd hmain =>
    exact ⟨fun _ hc => (by cases hc),fun he => absurd (h.exiting he) hmain⟩
  | push _ connfd ws hmain =>
    exact ⟨fun _ hc => (by cases hc),fun he => absurd (h.exiting he) hmain⟩
  | close => exact ⟨fun _ hc => (by cases hc),fun _ => rfl⟩
  | exit => exact ⟨fun _ hc => (by cases hc),fun _ => rfl⟩
  | sleep => exact ⟨h.room,h.exiting⟩
  | leave w hexiting =>
    have hmain := h.exiting hexiting
    exact ⟨fun _ hc => (by simp [hmain,MainPc.signal] at hc),fun _ => by simp [hmain,MainPc.signal]⟩
  | fulfil w front rest hexiting hqueue =>
    rw [hqueue,List.length_cons] at hb
    exact ⟨fun _ _ => hb,fun he => by simp [hexiting] at he⟩
  | fulfilled => exact ⟨h.room,h.exiting⟩
  | wakeMain => exact absurd rfl ha
  | wake => exact ⟨h.room,h.exiting⟩

/-- Unless its wait ends without a signal, the main thread waits at most once for each connection:
whenever it comes back from the wait its next push succeeds. -/
theorem signalled_push_succeeds {nrThreads maxRequests : ℕ} {s s' : Server} {connfd : ℤ}
    {wakes : Option Worker}
    (h : Reachable (serverInit maxRequests) (step nrThreads) (fun _ a => a ≠ .spuriousMain) s)
    (hmain : s.main = .woken connfd) (hst : step nrThreads s (.pushAgain wakes) = some s') :
    s'.main = .idle ∧ s'.pushed = s.pushed ++ [connfd] := by
  obtain ⟨l,hsound,hroomy,hfifo⟩ := pool_invariant (P := fun p => Roomy maxRequests p ∧ Fifo maxRequests p)
    ⟨⟨fun _ hc => (by cases hc),fun he => (by cases he)⟩,rfl,Nat.zero_le _,List.Sublist.refl _⟩
    (fun _ _ _ _ _ hp ha hm => ⟨move_roomy hm hp.1 hp.2.bounded ha,hm.fifo hp.2⟩) h
  have hroom : l.length < maxRequests := by
    have hlt := hroomy.room connfd hmain
    rwa [show (view s l).queue.length = l.length from List.length_map ..] at hlt
  obtain ⟨q,hq,hholds,-⟩ := pushConnection_room hsound.holds (hsound.maxSize_eq ▸ hroom) connfd
  unfold step at hst
  rw [if_neg (not_not.mpr hsound.running)] at hst
  simp only [hmain,requestSection,hq,hholds.tailConnfd,if_true] at hst
  obtain ⟨ws,-,rfl⟩ := signalWork_cases hst
  exact ⟨rfl,rfl⟩

/-- The queue has room for one connection; the second one waits until the worker takes the first. -/
def mainWoken : Server :=
  final (step 1) [.serverRequest 5 none,.serverRequest 6 none,.work 0] (serverInit 1) (by decide +kernel)

theorem mainWoken_pushes : mainWoken.main = .woken 6 ∧
    ∃ s', step 1 mainWoken (.pushAgain none) = some s' ∧ s'.pushed = [5,6] := by
  have hmain : mainWoken.main = .woken 6 := by decide +kernel
  obtain ⟨s',hst⟩ := Option.isSome_iff_exists.mp
    (show (step 1 mainWoken (.pushAgain none)).isSome = true by decide +kernel)
  have hr : Reachable (serverInit 1) (step 1) (fun _ a => a ≠ .spuriousMain) mainWoken :=
    reachable_final .init fun a ha _ he => by subst he; revert ha; decide
  have hpush := (signalled_push_succeeds hr hmain hst).2
  have hp : mainWoken.pushed = [5] := by decide +kernel
  exact ⟨hmain,s',hst,by rw [hpush,hp]; rfl⟩

end WorkerProgress
end OsLabs

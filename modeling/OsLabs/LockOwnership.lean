import OsLabs.SchedulerRun

/-!
# Ownership of locks by thread instances

A lock records its owner by identifier, and identifiers are used again. As long as
`thread_create` does not hand out an identifier that some acquired lock names, every
check of ownership succeeds only for the instance that acquired the lock.
-/

namespace OsLabs
namespace LockOwnership

open ThreadModel Scheduler Sched SchedulerView SchedulerRun Transition

/-- The instance acquired the lock and has not released it since. -/
def AcquiredSince (lock : ℕ) (i : Inst) (h : List Event) : Prop :=
  ∃ newer older, h = newer ++ .acquired i lock::older ∧ .released i lock ∉ newer

/-- Releasing a lock, and passing an ownership check, is for the instance that acquired it. -/
def ByAcquirer (e : Event) (older : List Event) : Prop :=
  ∀ i lock, e = .passed i lock ∨ e = .released i lock → AcquiredSince lock i older

theorem AcquiredSince.append {lock : ℕ} {i : Inst} {n h : List Event} (ha : AcquiredSince lock i h)
    (hn : .released i lock ∉ n) : AcquiredSince lock i (n ++ h) := by
  obtain ⟨newer,older,rfl,hr⟩ := ha
  exact ⟨n ++ newer,older,by simp,by simp [hn,hr]⟩

structure OwnerInv (σ : Sched) : Prop where
  acquirer : ∀ lock l, σ.locks lock = some l → l.isAcquired = true →
    AcquiredSince lock (σ.inst l.acquiredBy) σ.history
  checked : Always ByAcquirer σ.history

theorem OwnerInv.owns {σ : Sched} (h : OwnerInv σ) {lock : ℕ} (ho : σ.Owns lock) :
    AcquiredSince lock σ.self σ.history := by
  obtain ⟨l,hl,ha,hb⟩ := ho
  have hacq := h.acquirer lock l hl ha
  rwa [hb] at hacq

/-- Moves that do not touch the locks and record neither a check nor a release. -/
theorem OwnerInv.frame {σ σ' : Sched} {n : List Event} (h : OwnerInv σ)
    (hh : σ'.history = n ++ σ.history)
    (hn : ∀ e ∈ n, (∀ i lock, e ≠ .passed i lock) ∧ ∀ i lock, e ≠ .released i lock)
    (hl : ∀ lock l, σ'.locks lock = some l → σ.locks lock = some l)
    (hg : ∀ lock l, σ'.locks lock = some l → l.isAcquired = true →
      (σ'.slots l.acquiredBy).generation = (σ.slots l.acquiredBy).generation) : OwnerInv σ' where
  acquirer lock l hlk ha := by
    have hi : σ'.inst l.acquiredBy = σ.inst l.acquiredBy := by simp [Sched.inst,hg lock l hlk ha]
    rw [hi,hh]
    exact (h.acquirer lock l (hl lock l hlk) ha).append fun hm => (hn _ hm).2 _ _ rfl
  checked := by
    rw [hh]
    refine h.checked.append fun e he older i lock hc => ?_
    rcases hc with hc | hc
    · exact absurd hc ((hn e he).1 i lock)
    · exact absurd hc ((hn e he).2 i lock)

theorem OwnerInv.acquire {σ : Sched} (h : OwnerInv σ) {lock : ℕ} {c : Call} {v : ℤ}
    {enabled : Bool} : OwnerInv
      (((σ.setLock lock (some ⟨true,σ.current⟩)).record (.acquired σ.self lock)).ret c v enabled) where
  acquirer lock' l hl ha := by
    let σ' := ((σ.setLock lock (some ⟨true,σ.current⟩)).record (.acquired σ.self lock)).ret c v enabled
    have hi : ∀ t, σ'.inst t = σ.inst t := by
      intro t
      by_cases ht : t = σ.current <;>
        simp [σ',Sched.inst,Sched.ret,Sched.modify,record,Sched.setLock,ht]
    have hh : σ'.history = [.ret σ.self c v enabled,.acquired σ.self lock] ++ σ.history := rfl
    change AcquiredSince lock' (σ'.inst l.acquiredBy) σ'.history
    rw [hi,hh]
    by_cases hll : lock' = lock
    · subst hll
      obtain rfl : ⟨true,σ.current⟩ = l := by
        simpa [Sched.ret,Sched.modify,record,Sched.setLock] using hl
      exact ⟨[.ret σ.self c v enabled],σ.history,rfl,by simp⟩
    · have hl' : σ.locks lock' = some l := by
        simpa [Sched.ret,Sched.modify,record,Sched.setLock,hll] using hl
      exact (h.acquirer lock' l hl' ha).append (by simp)
  checked := always_cons.mpr ⟨by simp [ByAcquirer],always_cons.mpr ⟨by simp [ByAcquirer],h.checked⟩⟩

theorem OwnerInv.unlock {σ : Sched} (h : OwnerInv σ) {lock : ℕ} (ho : σ.Owns lock) :
    OwnerInv ((σ.setLock lock (some ⟨false,-1⟩)).record (.released σ.self lock)) where
  acquirer lock' l hl ha := by
    have hll : lock' ≠ lock := by
      rintro rfl
      obtain rfl : ⟨false,-1⟩ = l := by simpa [record,Sched.setLock] using hl
      simp at ha
    have hl' : σ.locks lock' = some l := by simpa [record,Sched.setLock,hll] using hl
    refine (h.acquirer lock' l hl' ha).append (n := [.released σ.self lock]) ?_
    simp [hll]
  checked := by
    refine always_cons.mpr ⟨?_,h.checked⟩
    rintro i lock' (he | he)
    · simp at he
    · obtain ⟨rfl,rfl⟩ : σ.self = i ∧ lock = lock' := by simpa using he
      exact h.owns ho

theorem OwnerInv.passed {σ : Sched} (h : OwnerInv σ) {lock : ℕ} (ho : σ.Owns lock) :
    OwnerInv (σ.record (.passed σ.self lock)) where
  acquirer lock' l hl ha := (h.acquirer lock' l hl ha).append (n := [_]) (by simp)
  checked := by
    refine always_cons.mpr ⟨?_,h.checked⟩
    rintro i lock' (he | he)
    · obtain ⟨rfl,rfl⟩ : σ.self = i ∧ lock = lock' := by simpa using he
      exact h.owns ho
    · simp at he

theorem Move.ownerInv {D : Set Defect} (hD : .recycle ∉ D) {σ σ' : Sched} (h : OwnerInv σ)
    (hm : Move D σ σ') : OwnerInv σ' := by
  cases hm with
  | acquire => exact h.acquire
  | unlock lock c _ ho _ _ _ _ => exact h.unlock ho
  | passed lock _ ho => exact h.passed ho
  | create id rest _ _ _ hr =>
    refine h.frame (n := [_]) rfl (by simp) (fun _ _ hl => hl) (fun lock l hl ha => ?_)
    have hne := hr.resolve_left hD lock l hl ha
    simp [Sched.create,hne]
  | own | discard =>
    exact h.frame (n := [_]) rfl (by simp) (fun _ _ hl => hl) (fun _ _ _ _ => rfl)
  | refuse =>
    exact h.frame (n := [_,_]) rfl (by simp) (fun _ _ hl => hl) (fun _ _ _ _ => rfl)
  | lose | forget =>
    exact h.frame (n := []) rfl (by simp) (fun _ _ hl => hl) (fun _ _ _ _ => rfl)
  | request | resume =>
    refine h.frame (n := []) rfl (by simp) (fun _ _ hl => hl) (fun _ l _ _ => ?_)
    simp only [Sched.modify]
    split <;> rfl
  | call | kill =>
    refine h.frame (n := [_]) rfl (by simp) (fun _ _ hl => hl) (fun _ l _ _ => ?_)
    simp only [Sched.modify,record]
    split <;> rfl
  | ret =>
    refine h.frame (n := [_]) rfl (by simp) (fun _ _ hl => hl) (fun _ l _ _ => ?_)
    simp only [Sched.ret,Sched.modify,record]
    split <;> rfl
  | free lock v enabled _ _ _ =>
    refine h.frame (n := [_]) rfl (by simp) (fun lock' l hl => ?_) (fun _ l _ _ => ?_)
    · by_cases hll : lock' = lock
      · simp [Sched.ret,Sched.modify,record,Sched.setLock,hll] at hl
      · simpa [Sched.ret,Sched.modify,record,Sched.setLock,hll] using hl
    · by_cases ht : l.acquiredBy = σ.current <;>
        simp [Sched.ret,Sched.modify,record,Sched.setLock,ht]
  | wake =>
    refine h.frame rfl (fun e he => ?_) (fun _ _ hl => hl) (fun _ _ _ _ => rfl)
    simp only [List.mem_reverse,List.mem_map] at he
    obtain ⟨u,_,rfl⟩ := he
    simp
  | switch x =>
    obtain ⟨n,hh,hnew⟩ : ∃ n, (σ.switch x).history = n ++ σ.history ∧
        ∀ e ∈ n, (∀ i lock, e ≠ .passed i lock) ∧ ∀ i lock, e ≠ .released i lock := by
      cases hq : σ.me.waitQueue with
      | none => exact ⟨[],by simp [Sched.switch,hq],by simp⟩
      | some q => exact ⟨[.slept σ.self q],by simp [Sched.switch,hq],by simp⟩
    refine h.frame hh hnew (fun _ _ hl => hl) (fun _ l _ _ => ?_)
    simp only [Sched.switch]
    split
    · rfl
    · split <;> rfl
  | exit marked next rest _ hn =>
    refine h.frame (n := ((σ.waits (.tWait σ.current)).map fun t =>
        Event.woken (σ.inst t) (.tWait σ.current) .threadExit).reverse ++ [.exited σ.self marked])
      (by simp [Sched.exit]) (fun e he => ?_) (fun _ _ hl => hl) (fun _ l _ _ => ?_)
    · simp only [List.mem_append,List.mem_reverse,List.mem_map,List.mem_singleton] at he
      rcases he with ⟨u,_,rfl⟩ | rfl <;> simp
    · simp only [Sched.exit]
      split
      · rfl
      · split <;> rfl

/-- `thread_create` does not hand out an identifier that an acquired lock names as its owner. -/
def NotRecycling (s : State) (a : Action) : Prop :=
  ∀ stack id rest, a = .call (.threadCreate stack) → s.availableThreadIds = id::rest →
    ∀ lock l, s.locks lock = some l → l.isAcquired = true → l.acquiredBy ≠ id

theorem threadInit_ownerInv : OwnerInv (view threadInit) where
  acquirer lock l hl ha := by
    obtain rfl : lockCreate = l := by simpa [view,threadInit] using hl
    simp [lockCreate] at ha
  checked := always_nil

/-- In the runs that hand out no identifier of an owner, every release and every ownership
check that succeeds is by the instance that acquired the lock and has not released it. -/
theorem locks_released_by_acquirer {s : State} (h : Reachable NotRecycling s) :
    Always ByAcquirer s.history := by
  obtain ⟨σ,hs,_,hinv,_⟩ := shown_of_reachable (D := {d | d ≠ .recycle}) (P := OwnerInv)
    (fun s a _ _ ha d => (em (d = .recycle)).elim (fun hd => .inr (hd ▸ ha)) .inl)
    threadInit_ownerInv (fun _ _ _ h hm => Move.ownerInv (by simp) h hm) h
  cases hs with
  | view hv => subst hv; exact hinv.checked
  | halted _ _ hh _ =>
    rw [hh]
    exact always_cons.mpr ⟨by simp [ByAcquirer],hinv.checked⟩

def acquireRelease : List Action := [.call (.lockAcquire 0),.call (.lockRelease 0)]

def afterAcquireRelease : State := final step acquireRelease threadInit (by decide +kernel)

theorem afterAcquireRelease_by_acquirer : .released ⟨0,0⟩ 0 ∈ afterAcquireRelease.history ∧
    Always ByAcquirer afterAcquireRelease.history :=
  ⟨by decide +kernel,locks_released_by_acquirer
    (reachable_final .init (by simp [acquireRelease,NotRecycling]))⟩

/-- Thread 1 exits with the lock; the thread that gets its identifier releases the lock. -/
def releaseByHeir : List Action :=
  [.call (.threadCreate true),.call (.threadYield 1),.run,.run,.run,.call (.lockAcquire 0),
    .call .threadExit,.run,.call (.threadCreate true),.call (.threadYield 1),.run,.run,.run,
    .call (.lockRelease 0)]

def afterReleaseByHeir : State := final step releaseByHeir threadInit (by decide +kernel)

theorem releaseByHeir_not_by_acquirer : Reachable anyStep afterReleaseByHeir ∧
    ¬ Always ByAcquirer afterReleaseByHeir.history := by
  refine ⟨reachable_final .init fun _ _ _ => trivial,fun h => ?_⟩
  have hnone : .acquired ⟨1,2⟩ 0 ∉ afterReleaseByHeir.history := by decide +kernel
  have hmem : .released ⟨1,2⟩ 0 ∈ afterReleaseByHeir.history := by decide +kernel
  obtain ⟨newer,older,ho⟩ := List.append_of_mem hmem
  obtain ⟨newer',older',ho',_⟩ := h _ older ⟨newer,ho.symm⟩ ⟨1,2⟩ 0 (.inr rfl)
  exact hnone (by rw [ho,ho']; simp)

end LockOwnership
end OsLabs

import OsLabs.SchedulerRun

/-!
# Mutual exclusion of locks

Who holds a lock is read off the calls and returns of the threads alone. In every run the
lock names its live holder as its owner, so there is at most one.
-/

namespace OsLabs
namespace LockExclusion

open ThreadModel Scheduler Sched SchedulerView SchedulerRun Transition

/-- Whether the instance holds the lock, and whether it held the lock when it entered the
`cv_wait` that has not returned. -/
def holding (lock : ℕ) (i : Inst) : List Event → Bool × Bool
  | [] => (false,false)
  | .ret j (.lockAcquire l) _ _::h => if j = i ∧ l = lock then (true,false) else holding lock i h
  | .call j (.lockRelease l) _::h => if j = i ∧ l = lock then (false,false) else holding lock i h
  | .call j (.cvWait _ l) _::h =>
      if j = i ∧ l = lock then (false,(holding lock i h).1) else holding lock i h
  | .ret j (.cvWait _ l) _ _::h =>
      if j = i ∧ l = lock then ((holding lock i h).2,false) else holding lock i h
  | _::h => holding lock i h

/-- A holder: it returned from `lock_acquire`, or from a `cv_wait` that it entered as a holder,
and has since neither called `lock_release` nor `cv_wait`. -/
def Holder (lock : ℕ) (i : Inst) (h : List Event) : Prop := (holding lock i h).1 = true

/-- The events that change who holds the lock. -/
def touches (lock : ℕ) : Event → Option Inst
  | .ret j (.lockAcquire l) _ _ => if l = lock then some j else none
  | .call j (.lockRelease l) _ => if l = lock then some j else none
  | .call j (.cvWait _ l) _ => if l = lock then some j else none
  | .ret j (.cvWait _ l) _ _ => if l = lock then some j else none
  | _ => none

theorem holding_cons {lock : ℕ} {i : Inst} {e : Event} {h : List Event}
    (he : touches lock e ≠ some i) : holding lock i (e::h) = holding lock i h := by
  cases e with
  | call j c enabled =>
    cases c with
    | lockRelease l | cvWait _ l =>
      have hn : ¬ (j = i ∧ l = lock) := by
        rintro ⟨rfl,rfl⟩
        simp [touches] at he
      simp [holding,hn]
    | _ => rfl
  | ret j c v enabled =>
    cases c with
    | lockAcquire l | cvWait _ l =>
      have hn : ¬ (j = i ∧ l = lock) := by
        rintro ⟨rfl,rfl⟩
        simp [touches] at he
      simp [holding,hn]
    | _ => rfl
  | _ => rfl

theorem holding_append {lock : ℕ} {i : Inst} {n h : List Event}
    (hn : ∀ e ∈ n, touches lock e ≠ some i) : holding lock i (n ++ h) = holding lock i h := by
  induction n with
  | nil => rfl
  | cons e n ih =>
    rw [List.cons_append,holding_cons (hn e (by simp)),ih fun e' he' => hn e' (by simp [he'])]

theorem touches_actor {lock : ℕ} {e : Event} {i : Inst} (h : touches lock e = some i) :
    actor e = some i := by
  cases e with
  | call j c enabled =>
    cases c <;> simp_all [touches,actor]
  | ret j c v enabled =>
    cases c <;> simp_all [touches,actor]
  | _ => simp [touches] at h

theorem holding_future {σ : Sched} (h : HistoryInv σ) (lock : ℕ) {i : Inst}
    (hi : (σ.slots i.tid).generation < i.generation) :
    holding lock i σ.history = (false,false) := by
  have hn : ∀ e ∈ σ.history, touches lock e ≠ some i := by
    intro e he ht
    exact absurd (h.past e he i (touches_actor ht)) (not_le.mpr hi)
  simpa [holding] using holding_append (h := []) hn

def Live (σ : Sched) (t : Tid) : Prop := (σ.slots t).tState ≠ .notAssigned

structure HolderInv (σ : Sched) : Prop where
  owner : ∀ lock t l, Live σ t → Holder lock (σ.inst t) σ.history → σ.locks lock = some l →
    l.isAcquired = true ∧ l.acquiredBy = t
  single : ∀ lock t u, Live σ t → Live σ u → Holder lock (σ.inst t) σ.history →
    Holder lock (σ.inst u) σ.history → t = u
  releasing : ∀ lock t c, Live σ t → (σ.slots t).pending = some c → Releases lock c →
    ¬ Holder lock (σ.inst t) σ.history

/-- Moves that do not change who holds which lock. -/
theorem HolderInv.frame {σ σ' : Sched} {n : List Event} (h : HolderInv σ)
    (hh : σ'.history = n ++ σ.history) (hn : ∀ e ∈ n, ∀ lock, touches lock e = none)
    (hl : ∀ lock l, σ'.locks lock = some l → σ.locks lock = some l)
    (hg : ∀ t, (σ'.slots t).generation = (σ.slots t).generation)
    (hs : ∀ t, Live σ' t → Live σ t)
    (hp : ∀ t c, Live σ' t → (σ'.slots t).pending = some c → (σ.slots t).pending = some c) :
    HolderInv σ' := by
  have hi : ∀ t, σ'.inst t = σ.inst t := fun t => by simp [Sched.inst,hg]
  have hhold : ∀ lock t, Holder lock (σ'.inst t) σ'.history ↔ Holder lock (σ.inst t) σ.history := by
    intro lock t
    rw [Holder,Holder,hi,hh,holding_append fun e he => by simp [hn e he]]
  exact ⟨fun lock t l ht hd hl' => h.owner lock t l (hs t ht) ((hhold lock t).mp hd) (hl lock l hl'),
    fun lock t u ht hu hd hd' => h.single lock t u (hs t ht) (hs u hu) ((hhold lock t).mp hd)
      ((hhold lock u).mp hd'),
    fun lock t c ht hc hr hd => h.releasing lock t c (hs t ht) (hp t c ht hc) hr ((hhold lock t).mp hd)⟩

theorem HolderInv.call {σ : Sched} (h : HolderInv σ) (c : Call) (enabled : Bool) :
    HolderInv ((σ.record (.call σ.self c enabled)).modify σ.current
      fun t => { t with pending := some c }) := by
  let σ' := (σ.record (.call σ.self c enabled)).modify σ.current fun t => { t with pending := some c }
  have hi : ∀ t, σ'.inst t = σ.inst t := by
    intro t
    by_cases ht : t = σ.current <;> simp [σ',Sched.inst,Sched.modify,record,ht]
  have hlive : ∀ t, Live σ' t ↔ Live σ t := by
    intro t
    by_cases ht : t = σ.current <;> simp [σ',Live,Sched.modify,record,ht]
  -- a call ends no other thread's hold, and begins none
  have hhold : ∀ lock t, Holder lock (σ'.inst t) σ'.history →
      Holder lock (σ.inst t) σ.history ∧ (t = σ.current → ¬ Releases lock c) := by
    intro lock t hd
    rw [hi] at hd
    have hd' : (holding lock (σ.inst t) (.call σ.self c enabled::σ.history)).1 = true := hd
    by_cases hto : touches lock (.call σ.self c enabled) = some (σ.inst t)
    · exfalso
      cases c with
      | lockRelease l | cvWait _ l =>
        have hl : l = lock ∧ σ.self = σ.inst t := by
          by_cases hl : l = lock
          · exact ⟨hl,by simpa [touches,hl] using hto⟩
          · simp [touches,hl] at hto
        simp [holding,hl.1,hl.2] at hd'
      | _ => simp [touches] at hto
    · rw [holding_cons hto] at hd'
      refine ⟨hd',?_⟩
      rintro rfl hr
      refine hto ?_
      cases c <;> simp_all [Releases,touches,Sched.self]
  refine ⟨fun lock t l ht hd hl => ?_,fun lock t u ht hu hd hd' => ?_,fun lock t c' ht hc hr hd => ?_⟩
  · exact h.owner lock t l ((hlive t).mp ht) (hhold lock t hd).1 hl
  · exact h.single lock t u ((hlive t).mp ht) ((hlive u).mp hu) (hhold lock t hd).1 (hhold lock u hd').1
  · by_cases htc : t = σ.current
    · subst htc
      obtain rfl : c = c' := by simpa [Sched.modify,record] using hc
      exact (hhold lock _ hd).2 rfl hr
    · exact h.releasing lock t c' ((hlive t).mp ht) (by simpa [Sched.modify,record,htc] using hc) hr
        (hhold lock t hd).1

theorem HolderInv.acquire {σ : Sched} (h : HolderInv σ) {lock : ℕ} {l : Lock} {c : Call} {v : ℤ}
    {enabled : Bool} (hl : σ.locks lock = some l) (hf : l.isAcquired = false)
    (hc : Acquires lock c) : HolderInv
      (((σ.setLock lock (some ⟨true,σ.current⟩)).record (.acquired σ.self lock)).ret c v enabled) := by
  let σ' := ((σ.setLock lock (some ⟨true,σ.current⟩)).record (.acquired σ.self lock)).ret c v enabled
  have hi : ∀ t, σ'.inst t = σ.inst t := by
    intro t
    by_cases ht : t = σ.current <;>
      simp [σ',Sched.inst,Sched.ret,Sched.modify,record,Sched.setLock,ht]
  have hlive : ∀ t, Live σ' t ↔ Live σ t := by
    intro t
    by_cases ht : t = σ.current <;>
      simp [σ',Live,Sched.ret,Sched.modify,record,Sched.setLock,ht]
  have hhist : σ'.history = [.ret σ.self c v enabled,.acquired σ.self lock] ++ σ.history := rfl
  have hnone : ∀ t, Live σ t → ¬ Holder lock (σ.inst t) σ.history := by
    intro t ht hd
    exact absurd ((h.owner lock t l ht hd hl).1.symm.trans hf) (by simp)
  -- only the lock that was free gets a holder, and only the running thread becomes one
  have hhold : ∀ lock' t, Live σ t → Holder lock' (σ'.inst t) σ'.history →
      lock' = lock ∧ t = σ.current ∨ lock' ≠ lock ∧ Holder lock' (σ.inst t) σ.history := by
    intro lock' t ht hd
    rw [hi,hhist] at hd
    by_cases hll : lock' = lock
    · subst hll
      by_cases htc : t = σ.current
      · exact .inl ⟨rfl,htc⟩
      · refine absurd ?_ (hnone t ht)
        rw [Holder,holding_append] at hd
        · exact hd
        · intro e he hto
          have ha := touches_actor hto
          simp only [List.mem_cons,List.not_mem_nil,or_false] at he
          rcases he with rfl | rfl <;>
            exact Sched.inst_ne (σ := σ) (Ne.symm htc) (Option.some.inj ha)
    · refine .inr ⟨hll,?_⟩
      have hll' := Ne.symm hll
      rw [Holder,holding_append] at hd
      · exact hd
      · intro e he
        simp only [List.mem_cons,List.not_mem_nil,or_false] at he
        rcases he with rfl | rfl
        · cases c <;> simp_all [Acquires,touches]
        · simp [touches]
  have hlocks : ∀ lock', lock' ≠ lock → σ'.locks lock' = σ.locks lock' := by
    intro lock' hll
    simp [σ',Sched.ret,Sched.modify,record,Sched.setLock,hll]
  refine ⟨fun lock' t l' ht hd hl' => ?_,fun lock' t u ht hu hd hd' => ?_,fun lock' t c' ht hc' hr hd => ?_⟩
  · rcases hhold lock' t ((hlive t).mp ht) hd with ⟨rfl,rfl⟩ | ⟨hll,hd'⟩
    · obtain rfl : ⟨true,σ.current⟩ = l' := by
        simpa [Sched.ret,Sched.modify,record,Sched.setLock] using hl'
      exact ⟨rfl,rfl⟩
    · exact h.owner lock' t l' ((hlive t).mp ht) hd' ((hlocks lock' hll).symm.trans hl')
  · rcases hhold lock' t ((hlive t).mp ht) hd with ⟨rfl,rfl⟩ | ⟨hll,hd⟩ <;>
      rcases hhold lock' u ((hlive u).mp hu) hd' with ⟨hl₁,rfl⟩ | ⟨hll',hd'⟩
    · rfl
    · exact absurd rfl hll'
    · exact absurd hl₁ hll
    · exact h.single lock' t u ((hlive t).mp ht) ((hlive u).mp hu) hd hd'
  · have htc : t ≠ σ.current := by
      rintro rfl
      simp [Sched.ret,Sched.modify,record,Sched.setLock] at hc'
    rcases hhold lock' t ((hlive t).mp ht) hd with ⟨_,rfl⟩ | ⟨hll,hd⟩
    · exact htc rfl
    · refine h.releasing lock' t c' ((hlive t).mp ht) ?_ hr hd
      simpa [Sched.ret,Sched.modify,record,Sched.setLock,htc] using hc'

theorem HolderInv.unlock {σ : Sched} (h : HolderInv σ) (hi : Inv σ) {lock : ℕ} {c : Call}
    (ho : σ.Owns lock) (hc : σ.me.pending = some c) (hr : Releases lock c) :
    HolderInv ((σ.setLock lock (some ⟨false,-1⟩)).record (.released σ.self lock)) := by
  obtain ⟨l,hl,ha,hb⟩ := ho
  have hlive : Live σ σ.current := by
    have := hi.current_running
    simp [Live,Sched.me] at this ⊢
    simp [this]
  have hnone : ∀ t, Live σ t → ¬ Holder lock (σ.inst t) σ.history := by
    intro t ht hd
    obtain rfl : σ.current = t := hb.symm.trans (h.owner lock t l ht hd hl).2
    exact h.releasing lock _ c hlive hc hr hd
  have hhold : ∀ lock' t,
      Holder lock' (σ.inst t) (.released σ.self lock::σ.history) → Holder lock' (σ.inst t) σ.history :=
    fun lock' t hd => hd
  refine ⟨fun lock' t l' ht hd hl' => ?_,fun lock' t u ht hu hd hd' => ?_,fun lock' t c' ht hc' hr' hd => ?_⟩
  · by_cases hll : lock' = lock
    · subst hll
      exact absurd hd (hnone t ht)
    · exact h.owner lock' t l' ht hd (by simpa [Sched.setLock,record,hll] using hl')
  · exact h.single lock' t u ht hu hd hd'
  · exact h.releasing lock' t c' ht hc' hr' hd

theorem HolderInv.refuse {σ : Sched} (h : HolderInv σ) (hi : Inv σ) {cv lock : ℕ} {l : Lock} {v : ℤ}
    {enabled : Bool} (hl : σ.locks lock = some l) (ho : ¬ σ.Owns lock) :
    HolderInv ((σ.record (.call σ.self (.cvWait cv lock) enabled)).record
      (.ret σ.self (.cvWait cv lock) v enabled)) := by
  have hlive : Live σ σ.current := by
    have := hi.current_running
    simp [Live,Sched.me] at this ⊢
    simp [this]
  have hself : ¬ Holder lock σ.self σ.history := by
    intro hd
    obtain ⟨ha,hb⟩ := h.owner lock σ.current l hlive hd hl
    exact ho ⟨l,hl,ha,hb⟩
  have hhold : ∀ lock' t, Holder lock' (σ.inst t) (.ret σ.self (.cvWait cv lock) v enabled::
      .call σ.self (.cvWait cv lock) enabled::σ.history) → Holder lock' (σ.inst t) σ.history := by
    intro lock' t hd
    by_cases hto : lock = lock' ∧ σ.self = σ.inst t
    · obtain ⟨rfl,hs⟩ := hto
      refine absurd ?_ hself
      simpa [Holder,holding,hs] using hd
    · simpa [Holder,holding,and_comm,hto] using hd
  exact ⟨fun lock' t l' ht hd hl' => h.owner lock' t l' ht (hhold lock' t hd) hl',
    fun lock' t u ht hu hd hd' => h.single lock' t u ht hu (hhold lock' t hd) (hhold lock' u hd'),
    fun lock' t c' ht hc' hr' hd => h.releasing lock' t c' ht hc' hr' (hhold lock' t hd)⟩

theorem HolderInv.create {σ : Sched} (h : HolderInv σ) (hi : HistoryInv σ) {id : Tid}
    {rest : List Tid} : HolderInv (σ.create id rest) := by
  have hnew : ∀ lock, ¬ Holder lock ((σ.create id rest).inst id) (σ.create id rest).history := by
    intro lock hd
    have hf := holding_future hi lock (i := ⟨id,(σ.slots id).generation+1⟩) (by simp)
    have hd' : (holding lock ⟨id,(σ.slots id).generation+1⟩ σ.history).1 = true := by
      simpa [Holder,Sched.inst,Sched.create,holding] using hd
    simp [hf] at hd'
  have hold : ∀ lock t, t ≠ id → Holder lock ((σ.create id rest).inst t) (σ.create id rest).history →
      Holder lock (σ.inst t) σ.history := by
    intro lock t ht hd
    simpa [Holder,Sched.inst,Sched.create,holding,ht] using hd
  have hlive : ∀ t, t ≠ id → Live (σ.create id rest) t → Live σ t := by
    intro t ht hlv
    simpa [Live,Sched.create,ht] using hlv
  refine ⟨fun lock t l ht hd hl => ?_,fun lock t u ht hu hd hd' => ?_,fun lock t c ht hc hr hd => ?_⟩
  · by_cases hti : t = id
    · subst hti; exact absurd hd (hnew lock)
    · exact h.owner lock t l (hlive t hti ht) (hold lock t hti hd) hl
  · by_cases hti : t = id
    · subst hti; exact absurd hd (hnew lock)
    · by_cases hui : u = id
      · subst hui; exact absurd hd' (hnew lock)
      · exact h.single lock t u (hlive t hti ht) (hlive u hui hu) (hold lock t hti hd)
          (hold lock u hui hd')
  · by_cases hti : t = id
    · subst hti; exact hnew lock hd
    · exact h.releasing lock t c (hlive t hti ht) (by simpa [Sched.create,hti] using hc) hr
        (hold lock t hti hd)

theorem Move.holderInv {D : Set Defect} {σ σ' : Sched} (hs : Sound D σ) (h : HolderInv σ)
    (hm : Move D σ σ') : HolderInv σ' := by
  have hi := hs.toInv
  cases hm with
  | call c enabled _ _ => exact h.call c enabled
  | acquire lock l c v enabled hl hf _ _ hc _ => exact h.acquire hl hf hc
  | unlock lock c _ ho _ hc hr _ => exact h.unlock hi ho hc hr
  | refuse cv lock l v enabled _ _ hl ho => exact h.refuse hi hl ho
  | create id rest _ _ _ _ => exact h.create hs.toHistoryInv
  | own | passed | discard =>
    exact h.frame (n := [_]) rfl (by simp [touches]) (fun _ _ hl => hl) (fun _ => rfl)
      (fun _ ht => ht) (fun _ _ _ hp => hp)
  | lose | forget =>
    exact h.frame (n := []) rfl (by simp) (fun _ _ hl => hl) (fun _ => rfl)
      (fun _ ht => ht) (fun _ _ _ hp => hp)
  | wake waker queue l rest hq _ =>
    refine h.frame rfl (fun e he => ?_) (fun _ _ hl => hl) (fun _ => rfl)
      (fun _ ht => ht) (fun _ _ _ hp => hp)
    simp only [List.mem_reverse,List.mem_map] at he
    obtain ⟨u,_,rfl⟩ := he
    simp [touches]
  | request | resume =>
    refine h.frame (n := []) rfl (by simp) (fun _ _ hl => hl) (fun t => ?_) (fun t ht => ?_)
      (fun t c _ hp => ?_) <;>
    · by_cases htc : t = σ.current <;> simp_all [Sched.modify,Live]
  | ret c v enabled _ _ hp =>
    have hto : ∀ lock, touches lock (.ret σ.self c v enabled) = none := by
      intro lock
      cases c <;> simp_all [touches,PlainReturn]
    refine h.frame (n := [_]) rfl (by simp [hto]) (fun _ _ hl => hl) (fun t => ?_) (fun t ht => ?_)
      (fun t c _ hp => ?_) <;>
    · by_cases htc : t = σ.current <;> simp_all [Sched.ret,Sched.modify,record,Live]
  | free lock v enabled _ _ _ =>
    refine h.frame (n := [_]) rfl (by simp [touches]) (fun lock' l hl => ?_) (fun t => ?_)
      (fun t ht => ?_) (fun t c _ hp => ?_)
    · by_cases hll : lock' = lock
      · simp [Sched.ret,Sched.modify,record,Sched.setLock,hll] at hl
      · simpa [Sched.ret,Sched.modify,record,Sched.setLock,hll] using hl
    all_goals
      by_cases htc : t = σ.current <;> simp_all [Sched.ret,Sched.modify,record,Sched.setLock,Live]
  | kill tid _ _ _ _ _ _ =>
    refine h.frame (n := [_]) rfl (by simp [touches]) (fun _ _ hl => hl) (fun t => ?_)
      (fun t ht => ?_) (fun t c _ hp => ?_) <;>
    · by_cases htt : t = tid <;> simp_all [Sched.modify,record,Live]
  | switch x hx _ _ _ =>
    have hxr := hi.ready x hx
    obtain ⟨n,hh,hnew⟩ : ∃ n, (σ.switch x).history = n ++ σ.history ∧
        ∀ e ∈ n, ∀ lock, touches lock e = none := by
      cases hq : σ.me.waitQueue with
      | none => exact ⟨[],by simp [Sched.switch,hq],by simp⟩
      | some q => exact ⟨[.slept σ.self q],by simp [Sched.switch,hq],by simp [touches]⟩
    refine h.frame hh hnew (fun _ _ hl => hl) (fun t => ?_) (fun t ht => ?_) (fun t c _ hp => ?_)
    · simp only [Sched.switch]
      split
      · rfl
      · split <;> rfl
    · by_cases htx : t = x
      · simp [Live,htx,hxr]
      · by_cases htc : t = σ.current
        · have := hi.current_running
          simp only [Sched.me] at this
          simp [Live,htc,this]
        · simpa [Live,Sched.switch,htx,htc] using ht
    · have he : ((σ.switch x).slots t).pending = (σ.slots t).pending := by
        simp only [Sched.switch]
        split
        · rfl
        · split <;> rfl
      exact he ▸ hp
  | exit marked next rest _ hn =>
    obtain ⟨hnc,hnr⟩ : next ≠ σ.current ∧ (σ.slots next).tState = .ready := by
      have hm : next ∈ σ.ready ++ σ.waits (.tWait σ.current) := by simp [hn]
      rcases List.mem_append.mp hm with hm | hm
      · exact ⟨hi.ne_current_of_ready hm,hi.ready next hm⟩
      · exact ⟨hi.ne_current_of_waiting hm,hi.waiting _ next hm⟩
    refine h.frame (n := ((σ.waits (.tWait σ.current)).map fun t =>
        Event.woken (σ.inst t) (.tWait σ.current) .threadExit).reverse ++ [.exited σ.self marked])
      (by simp [Sched.exit]) (fun e he => ?_) (fun _ _ hl => hl) (fun t => ?_) (fun t ht => ?_)
      (fun t c ht hp => ?_)
    · simp only [List.mem_append,List.mem_reverse,List.mem_map,List.mem_singleton] at he
      rcases he with ⟨u,_,rfl⟩ | rfl <;> simp [touches]
    · simp only [Sched.exit]
      split
      · rfl
      · split <;> rfl
    · by_cases htn : t = next
      · simp [Live,htn,hnr]
      · by_cases htc : t = σ.current
        · simp [Live,Sched.exit,htc,hnc.symm] at ht
        · simpa [Live,Sched.exit,htn,htc] using ht
    · by_cases htn : t = next
      · simpa [Sched.exit,htn] using hp
      · by_cases htc : t = σ.current
        · simp [Live,Sched.exit,htc,hnc.symm] at ht
        · simpa [Sched.exit,htn,htc] using hp

theorem threadInit_holderInv : HolderInv (view threadInit) where
  owner lock t l _ hd := by simp [Holder,holding,view,threadInit] at hd
  single lock t u _ _ hd := by simp [Holder,holding,view,threadInit] at hd
  releasing lock t c _ _ _ hd := by simp [Holder,holding,view,threadInit] at hd

/-- In every run a lock has at most one live holder, and a lock that exists is acquired and
names this holder as its owner. -/
theorem lock_mutual_exclusion {s : State} (h : Reachable anyStep s) (hr : s.status = .running)
    (lock : ℕ) (t : Tid) (ht : (s.TCBs t).tState ≠ .notAssigned)
    (hd : Holder lock (s.inst t) s.history) :
    (∀ u, (s.TCBs u).tState ≠ .notAssigned → Holder lock (s.inst u) s.history → u = t) ∧
      ∀ l, s.locks lock = some l → l.isAcquired = true ∧ l.acquiredBy = t := by
  obtain ⟨σ,hs,_,hinv,_⟩ := shown_of_reachable (D := Set.univ) (P := HolderInv)
    (fun _ _ _ _ _ d => .inl (Set.mem_univ d)) threadInit_holderInv
    (fun _ _ hs hk hm => Move.holderInv hs hk hm) h
  obtain rfl := hs.eq_view hr
  exact ⟨fun u hu hd' => hinv.single lock u t hu ht hd' hd,fun l hl => hinv.owner lock t l ht hd hl⟩

/-- Thread 1 sleeps on the lock that the main thread has acquired. -/
def acquireTwice : List Action :=
  [.call (.threadCreate true),.call (.lockAcquire 0),.call (.threadYield 1),.run,.run,.run,
    .call (.lockAcquire 0),.run]

def afterAcquireTwice : State := final step acquireTwice threadInit (by decide +kernel)

theorem afterAcquireTwice_reachable : Reachable anyStep afterAcquireTwice :=
  reachable_final .init fun _ _ _ => trivial

theorem afterAcquireTwice_holds : Holder 0 (afterAcquireTwice.inst 0) afterAcquireTwice.history := by
  unfold Holder
  decide +kernel

theorem afterAcquireTwice_holder : (afterAcquireTwice.TCBs 1).tState = .ready ∧
    (∀ u, (afterAcquireTwice.TCBs u).tState ≠ .notAssigned →
      Holder 0 (afterAcquireTwice.inst u) afterAcquireTwice.history → u = 0) ∧
    ∀ l, afterAcquireTwice.locks 0 = some l → l.isAcquired = true ∧ l.acquiredBy = 0 :=
  ⟨by decide +kernel,lock_mutual_exclusion afterAcquireTwice_reachable (by decide +kernel) 0 0
    (by decide +kernel) afterAcquireTwice_holds⟩

end LockExclusion
end OsLabs

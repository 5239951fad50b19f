import Mathlib.Data.List.TakeWhile
import OsLabs.Scheduler

/-!
# What every move of the scheduler keeps

`Inv` holds of every scheduler, whatever its defects: no thread is queued twice, the
state of a slot tells where its thread stands, and only an acquired lock has waiters.
A scheduler without losses also keeps `Complete`: every identifier stands somewhere.
-/

namespace OsLabs
namespace Scheduler

open ThreadModel QueueFamily Sched

structure Inv (σ : Sched) : Prop where
  exclusive : Exclusive σ.place
  range : ∀ p, ∀ t ∈ σ.place p, 0 ≤ t ∧ t < threadMaxThreads
  free : ∀ t ∈ σ.available, (σ.slots t).tState = .notAssigned
  ready : ∀ t ∈ σ.ready, (σ.slots t).tState = .ready
  waiting : ∀ q, ∀ t ∈ σ.waits q, (σ.slots t).tState = .ready
  running : ∀ t, (σ.slots t).tState = .running ↔ t = σ.current
  unmarked : ∀ t, (σ.slots t).tState = .notAssigned → (σ.slots t).killOnNextRun = false
  idle : ∀ t, t ≠ σ.current → (σ.slots t).waitQueue = none

/-- Threads wait, and the running thread is about to wait, for acquired locks only. -/
structure LockInv (σ : Sched) : Prop where
  request : ∀ lock, σ.me.waitQueue = some (.waitOnLock lock) →
    σ.Acquired lock ∧ ∃ c, σ.me.pending = some c ∧ Acquires lock c
  blocked : ∀ lock, σ.waits (.waitOnLock lock) ≠ [] → σ.Acquired lock

/-- Every identifier stands somewhere. -/
structure Complete (σ : Sched) : Prop where
  placed : ∀ t, 0 ≤ t → t < threadMaxThreads → ∃ p, t ∈ σ.place p

namespace Inv

variable {σ : Sched}

theorem current_range (h : Inv σ) : 0 ≤ σ.current ∧ σ.current < threadMaxThreads :=
  h.range .running σ.current (by simp [place,places])

theorem ready_range (h : Inv σ) {t : Tid} (ht : t ∈ σ.ready) : 0 ≤ t ∧ t < threadMaxThreads :=
  h.range .ready t ht

theorem ne_current_of_ready (h : Inv σ) {t : Tid} (ht : t ∈ σ.ready) : t ≠ σ.current := by
  rintro rfl
  have hp := h.exclusive.unique (i := .running) (j := .ready) (by simp [place,places]) ht
  cases hp

theorem ne_current_of_waiting (h : Inv σ) {q : WaitQueue} {t : Tid} (ht : t ∈ σ.waits q) :
    t ≠ σ.current := by
  rintro rfl
  have hp := h.exclusive.unique (i := .running) (j := .waiting q) (by simp [place,places]) ht
  cases hp

theorem notMem_waits_of_ready (h : Inv σ) {q : WaitQueue} {t : Tid} (ht : t ∈ σ.ready) :
    t ∉ σ.waits q := by
  intro hq
  have hp := h.exclusive.unique (i := .ready) (j := .waiting q) ht hq
  cases hp

theorem waits_nodup (h : Inv σ) (q : WaitQueue) : (σ.waits q).Nodup := h.exclusive.nodup (.waiting q)

theorem ne_current_of_available (h : Inv σ) {t : Tid} (ht : t ∈ σ.available) : t ≠ σ.current := by
  rintro rfl
  have hp := h.exclusive.unique (i := .running) (j := .available) (by simp [place,places]) ht
  cases hp

theorem current_running (h : Inv σ) : σ.me.tState = .running := (h.running _).mpr rfl

end Inv

/-- The part of the invariant that follows from the places alone. -/
theorem Move.exclusive_range {D : Set Defect} {σ σ' : Sched} (hm : Move D σ σ') (h : Inv σ) :
    Exclusive σ'.place ∧ ∀ p, ∀ t ∈ σ'.place p, 0 ≤ t ∧ t < threadMaxThreads := by
  rcases hm.places with hp | ⟨_,hp⟩
  · refine ⟨hp.exclusive h.exclusive,fun p t ht => ?_⟩
    obtain ⟨p',hp'⟩ := (hp.exists_mem t).mp ⟨p,ht⟩
    exact h.range p' t hp'
  · exact ⟨h.exclusive.sublist hp,fun p t ht => h.range p t ((hp p).subset ht)⟩

/-- Moves that leave places and slot states alone keep the invariant. -/
theorem Inv.of_slots {σ σ' : Sched} (h : Inv σ) (hx : Exclusive σ'.place)
    (hr : ∀ p, ∀ t ∈ σ'.place p, 0 ≤ t ∧ t < threadMaxThreads)
    (hav : ∀ t ∈ σ'.available, t ∈ σ.available)
    (hrd : ∀ t ∈ σ'.ready, t ∈ σ.ready ∨ ∃ q, t ∈ σ.waits q)
    (hw : ∀ q, ∀ t ∈ σ'.waits q, t ∈ σ.waits q) (hc : σ'.current = σ.current)
    (hs : ∀ t, (σ'.slots t).tState = (σ.slots t).tState)
    (hk : ∀ t, (σ.slots t).tState = .notAssigned →
      (σ'.slots t).killOnNextRun = (σ.slots t).killOnNextRun)
    (hq : ∀ t, t ≠ σ.current → (σ'.slots t).waitQueue = (σ.slots t).waitQueue) : Inv σ' where
  exclusive := hx
  range := hr
  free t ht := (hs t).trans (h.free t (hav t ht))
  ready t ht := by
    rw [hs]
    rcases hrd t ht with ht | ⟨q,ht⟩
    · exact h.ready t ht
    · exact h.waiting q t ht
  waiting q t ht := (hs t).trans (h.waiting q t (hw q t ht))
  running t := by rw [hs,hc]; exact h.running t
  unmarked t ht := by
    rw [hs] at ht
    rw [hk t ht]
    exact h.unmarked t ht
  idle t ht := by
    rw [hc] at ht
    exact (hq t ht).trans (h.idle t ht)

theorem Inv.switch {σ : Sched} (h : Inv σ) {x : Tid} (hx : x ∈ σ.ready)
    (he : Exclusive (σ.switch x).place)
    (hr : ∀ p, ∀ t ∈ (σ.switch x).place p, 0 ≤ t ∧ t < threadMaxThreads) : Inv (σ.switch x) where
  exclusive := he
  range := hr
  free t ht := by
    have hxt : t ≠ x := by
      rintro rfl
      have := (h.free t ht).symm.trans (h.ready t hx)
      cases this
    simp only [Sched.switch,hxt,if_false,h.ne_current_of_available ht]
    exact h.free t ht
  ready t ht := by
    have hxt : t ≠ x := by
      rintro rfl
      have hp := he.unique (i := .running) (j := .ready) (by simp [place,places,Sched.switch]) ht
      cases hp
    by_cases hc : t = σ.current
    · have hcx : σ.current ≠ x := fun hcx => hxt (hc.trans hcx)
      simp [Sched.switch,hc,hcx]
    · have hm : t ∈ σ.ready := by
        cases hq : σ.me.waitQueue with
        | none =>
          have : t ∈ σ.ready.erase x ∨ t = σ.current := by simpa [Sched.switch,hq] using ht
          exact List.mem_of_mem_erase (this.resolve_right hc)
        | some q =>
          have : t ∈ σ.ready.erase x := by simpa [Sched.switch,hq] using ht
          exact List.mem_of_mem_erase this
      simpa [Sched.switch,hxt,hc] using h.ready t hm
  waiting q t ht := by
    have hxt : t ≠ x := by
      rintro rfl
      have hp := he.unique (i := .running) (j := .waiting q)
        (by simp [place,places,Sched.switch]) ht
      cases hp
    by_cases hc : t = σ.current
    · have hcx : σ.current ≠ x := fun hcx => hxt (hc.trans hcx)
      simp [Sched.switch,hc,hcx]
    · have hm : t ∈ σ.waits q := by
        cases hq : σ.me.waitQueue with
        | none => simpa [Sched.switch,hq] using ht
        | some q' =>
          by_cases hqq : q = q'
          · subst hqq
            have : t ∈ σ.waits q ∨ t = σ.current := by simpa [Sched.switch,hq] using ht
            exact this.resolve_right hc
          · simpa [Sched.switch,hq,hqq] using ht
      simpa [Sched.switch,hxt,hc] using h.waiting q t hm
  running t := by
    by_cases hxt : t = x
    · simp [Sched.switch,hxt]
    · by_cases hc : t = σ.current
      · have hcx : σ.current ≠ x := fun hcx => hxt (hc.trans hcx)
        simp [Sched.switch,hc,hcx]
      · simp only [Sched.switch,hxt,if_false,hc,iff_false]
        exact fun hr => hc ((h.running t).mp hr)
  unmarked t ht := by
    by_cases hxt : t = x
    · simp [Sched.switch,hxt] at ht
    · by_cases hc : t = σ.current
      · simp [Sched.switch,hc,(h.ne_current_of_ready hx).symm] at ht
      · simp only [Sched.switch,hxt,if_false,hc] at ht ⊢
        exact h.unmarked t ht
  idle t ht := by
    have hxt : t ≠ x := ht
    by_cases hc : t = σ.current
    · have hcx : σ.current ≠ x := fun hcx => hxt (hc.trans hcx)
      simp [Sched.switch,hc,hcx]
    · simpa [Sched.switch,hxt,hc] using h.idle t hc

theorem Inv.exit {σ : Sched} (h : Inv σ) {marked : Bool} {next : Tid} {rest : List Tid}
    (hn : σ.ready ++ σ.waits (.tWait σ.current) = next::rest)
    (he : Exclusive (σ.exit marked next rest).place)
    (hr : ∀ p, ∀ t ∈ (σ.exit marked next rest).place p, 0 ≤ t ∧ t < threadMaxThreads) :
    Inv (σ.exit marked next rest) := by
  have hmem : ∀ t, t ∈ next::rest → (σ.slots t).tState = .ready ∧ t ≠ σ.current := by
    intro t ht
    rw [← hn] at ht
    rcases List.mem_append.mp ht with ht | ht
    · exact ⟨h.ready t ht,h.ne_current_of_ready ht⟩
    · exact ⟨h.waiting _ t ht,h.ne_current_of_waiting ht⟩
  obtain ⟨hnr,hnc⟩ := hmem next (by simp)
  have hnotin : ∀ p t, p ≠ .running → t ∈ (σ.exit marked next rest).place p → t ≠ next := by
    rintro p t hp ht rfl
    exact hp (he.unique ht (by simp [place,places,Sched.exit]))
  refine ⟨he,hr,?_,?_,?_,?_,?_,?_⟩
  · intro t ht
    have hne := hnotin .available t (by simp) ht
    rcases List.mem_cons.mp ht with rfl | ht
    · simp [Sched.exit,hne]
    · simpa [Sched.exit,hne,h.ne_current_of_available ht] using h.free t ht
  · intro t ht
    have hne := hnotin .ready t (by simp) ht
    obtain ⟨htr,htc⟩ := hmem t (List.mem_cons_of_mem _ ht)
    simpa [Sched.exit,hne,htc] using htr
  · intro q t ht
    have hne := hnotin (.waiting q) t (by simp) ht
    have hq : t ∈ σ.waits q := by
      by_cases hq : q = .tWait σ.current
      · simp [Sched.exit,hq] at ht
      · simpa [Sched.exit,hq] using ht
    simpa [Sched.exit,hne,h.ne_current_of_waiting hq] using h.waiting q t hq
  · intro t
    by_cases hne : t = next
    · simp [Sched.exit,hne]
    · by_cases hc : t = σ.current
      · simp [Sched.exit,hc,hnc.symm]
      · simp only [Sched.exit,hne,hc,if_false,iff_false]
        exact fun hr => hc ((h.running t).mp hr)
  · intro t ht
    by_cases hne : t = next
    · simp [Sched.exit,hne] at ht
    · by_cases hc : t = σ.current
      · simp [Sched.exit,hc,hnc.symm]
      · simp only [Sched.exit,hne,hc,if_false] at ht ⊢
        exact h.unmarked t ht
  · intro t ht
    have hne : t ≠ next := ht
    by_cases hc : t = σ.current
    · simp [Sched.exit,hc,hnc.symm]
    · simpa [Sched.exit,hne,hc] using h.idle t hc

theorem Inv.create {σ : Sched} (h : Inv σ) {id : Tid} {rest : List Tid}
    (ha : σ.available = id::rest) (he : Exclusive (σ.create id rest).place)
    (hr : ∀ p, ∀ t ∈ (σ.create id rest).place p, 0 ≤ t ∧ t < threadMaxThreads) :
    Inv (σ.create id rest) := by
  have hid : id ∈ σ.available := by simp [ha]
  have hnotin : ∀ p t, p ≠ .ready → t ∈ (σ.create id rest).place p → t ≠ id := by
    rintro p t hp ht rfl
    exact hp (he.unique ht (by simp [place,places,Sched.create]))
  refine ⟨he,hr,?_,?_,?_,?_,?_,?_⟩
  · intro t ht
    have hne := hnotin .available t (by simp) ht
    simpa [Sched.create,hne] using h.free t (by simp [ha]; exact .inr ht)
  · intro t ht
    by_cases hne : t = id
    · simp [Sched.create,hne]
    · have hm : t ∈ σ.ready := by
        have : t ∈ σ.ready ∨ t = id := by simpa [Sched.create] using ht
        exact this.resolve_right hne
      simpa [Sched.create,hne] using h.ready t hm
  · intro q t ht
    have hne := hnotin (.waiting q) t (by simp) ht
    simpa [Sched.create,hne] using h.waiting q t ht
  · intro t
    by_cases hne : t = id
    · simp [Sched.create,hne,h.ne_current_of_available hid]
    · simpa [Sched.create,hne] using h.running t
  · intro t ht
    by_cases hne : t = id
    · simp [Sched.create,hne] at ht
    · simp only [Sched.create,hne,if_false] at ht ⊢
      exact h.unmarked t ht
  · intro t ht
    have hq := h.idle t ht
    by_cases hne : t = id
    · subst hne; simpa [Sched.create] using hq
    · simpa [Sched.create,hne] using hq

theorem Move.inv {D : Set Defect} {σ σ' : Sched} (hm : Move D σ σ') (h : Inv σ) : Inv σ' := by
  obtain ⟨hx,hr⟩ := hm.exclusive_range h
  cases hm with
  | switch x hxr _ _ _ => exact h.switch hxr hx hr
  | exit marked next rest _ hn => exact h.exit hn hx hr
  | create id rest _ ha _ _ => exact h.create ha hx hr
  | wake waker queue l rest hq _ =>
    refine h.of_slots hx hr (fun t ht => ht) ?_ ?_ rfl (fun _ => rfl) (fun _ _ => rfl)
      (fun _ _ => rfl)
    · intro t ht
      rcases List.mem_append.mp ht with ht | ht
      · exact .inl ht
      · exact .inr ⟨queue,by simp [hq,ht]⟩
    · intro q t ht
      by_cases hqq : q = queue
      · subst hqq
        have ht' : t ∈ rest := by simpa [Sched.wake] using ht
        simp [hq,ht']
      · simpa [Sched.wake,hqq] using ht
  | kill tid hne _ _ ha _ _ =>
    refine h.of_slots hx hr (fun t ht => ht) (fun t ht => .inl ht) (fun q t ht => ht) rfl
      (fun t => ?_) (fun t ht => ?_) (fun t ht => ?_)
    · simp only [Sched.modify,Sched.record]
      split <;> rfl
    · have h₁ : t ≠ tid := by rintro rfl; exact ha ht
      simp only [Sched.modify,Sched.record,h₁,if_false]
    · simp only [Sched.modify,Sched.record]
      split <;> rfl
  | lose x =>
    exact h.of_slots hx hr (fun t ht => ht) (fun t ht => .inl (List.mem_of_mem_erase ht))
      (fun q t ht => ht) rfl (fun _ => rfl) (fun _ _ => rfl) (fun _ _ => rfl)
  | forget id rest _ ha =>
    exact h.of_slots hx hr (fun t ht => by rw [ha]; exact List.mem_cons_of_mem _ ht)
      (fun t ht => .inl ht) (fun q t ht => ht) rfl (fun _ => rfl) (fun _ _ => rfl) (fun _ _ => rfl)
  | discard queue tid rest _ _ hq =>
    refine h.of_slots hx hr (fun t ht => ht) (fun t ht => .inl ht) ?_ rfl (fun _ => rfl)
      (fun _ _ => rfl) (fun _ _ => rfl)
    intro q t ht
    by_cases hqq : q = queue
    · subst hqq
      have ht' : t ∈ rest := by simpa [Sched.record] using ht
      simp [hq,ht']
    · simpa [Sched.record,hqq] using ht
  | own | refuse | passed | unlock =>
    exact h.of_slots hx hr (fun t ht => ht) (fun t ht => .inl ht) (fun q t ht => ht) rfl
      (fun _ => rfl) (fun _ _ => rfl) (fun _ _ => rfl)
  | call | ret | request | resume | acquire | free =>
    refine h.of_slots hx hr (fun t ht => ht) (fun t ht => .inl ht) (fun q t ht => ht) rfl
      (fun t => ?_) (fun t _ => ?_) (fun t ht => ?_)
    · by_cases ht : t = σ.current <;>
        simp [Sched.modify,Sched.record,Sched.ret,Sched.setLock,ht]
    · by_cases ht : t = σ.current <;>
        simp [Sched.modify,Sched.record,Sched.ret,Sched.setLock,ht]
    · simp [Sched.modify,Sched.record,Sched.ret,Sched.setLock,ht]

/-! ### Waiting for locks -/

/-- A call acquires one lock at most. -/
theorem Acquires.unique {l l' : ℕ} {c : Call} (h : Acquires l c) (h' : Acquires l' c) : l = l' := by
  cases c <;> simp_all [Acquires]

theorem LockInv.of_eq {σ σ' : Sched} (h : LockInv σ) (hm : σ'.me.waitQueue = σ.me.waitQueue)
    (hp : ∀ lock c, σ.me.waitQueue = some (.waitOnLock lock) → σ.me.pending = some c →
      Acquires lock c → σ'.me.pending = some c)
    (hw : ∀ lock, σ'.waits (.waitOnLock lock) ≠ [] → σ.waits (.waitOnLock lock) ≠ [])
    (hl : σ'.locks = σ.locks) : LockInv σ' where
  request lock hq := by
    rw [hm] at hq
    obtain ⟨ha,c,hc,hac⟩ := h.request lock hq
    exact ⟨by simpa [Sched.Acquired,hl] using ha,c,hp lock c hq hc hac,hac⟩
  blocked lock hb := by simpa [Sched.Acquired,hl] using h.blocked lock (hw lock hb)

/-- A thread whose call does not acquire a lock has not asked to wait for one. -/
theorem LockInv.not_request {σ : Sched} (h : LockInv σ) {c : Call} (hc : σ.me.pending = some c)
    (hn : ∀ lock, ¬ Acquires lock c) (lock : ℕ) : σ.me.waitQueue ≠ some (.waitOnLock lock) := by
  intro hq
  obtain ⟨_,c',hc',ha⟩ := h.request lock hq
  obtain rfl : c = c' := Option.some.inj (hc.symm.trans hc')
  exact hn lock ha

theorem PlainReturn.not_acquires {D : Set Defect} {σ : Sched} {c : Call} {v : ℤ}
    (h : PlainReturn D σ c v) (lock : ℕ) : ¬ Acquires lock c := by
  cases c <;> simp_all [PlainReturn,Acquires]

/-- Changing one lock changes what is known about this lock only. -/
theorem Sched.acquired_setLock {σ : Sched} {lock lock' : ℕ} {l : Option Lock} :
    (σ.setLock lock l).Acquired lock' ↔
      if lock' = lock then ∃ k, l = some k ∧ k.isAcquired = true else σ.Acquired lock' := by
  by_cases h : lock' = lock <;> simp [Sched.Acquired,Sched.setLock,h]

/-- The lock that the running thread is about to wait for is not the one `unlock`, `free` or
`acquire` changes, so these keep the invariant as soon as the changed lock has no waiters or
is acquired. -/
theorem LockInv.setLock {σ σ' : Sched} (h : LockInv σ) (lock : ℕ) {l : Option Lock}
    (hl : σ'.locks = (σ.setLock lock l).locks) (hw : σ'.waits = σ.waits)
    (hq : ∀ lock, σ'.me.waitQueue ≠ some (.waitOnLock lock))
    (hb : σ.waits (.waitOnLock lock) = [] ∨ ∃ k, l = some k ∧ k.isAcquired = true) :
    LockInv σ' where
  request lock' hr := absurd hr (hq lock')
  blocked lock' hb' := by
    rw [hw] at hb'
    have ha : (σ.setLock lock l).Acquired lock' := by
      rw [Sched.acquired_setLock]
      split
      · rename_i he
        subst he
        exact hb.resolve_left hb'
      · exact h.blocked lock' hb'
    simpa [Sched.Acquired,hl] using ha

theorem Move.lockInv {D : Set Defect} {σ σ' : Sched} (hm : Move D σ σ') (hi : Inv σ)
    (h : LockInv σ) : LockInv σ' := by
  cases hm with
  | own | refuse | passed | lose | forget =>
    exact h.of_eq rfl (fun _ _ _ hp _ => hp) (fun _ hw => hw) rfl
  | call c enabled _ hn =>
    refine h.of_eq (by simp [me,Sched.modify,record]) ?_ (fun _ hw => hw) rfl
    intro lock c' _ hp _
    exact absurd (hn.symm.trans hp) (by simp)
  | ret c v enabled _ hc hpr =>
    refine h.of_eq (by simp [me,Sched.modify,record,Sched.ret]) ?_ (fun _ hw => hw) rfl
    intro lock c' _ hp ha
    obtain rfl : c = c' := Option.some.inj (hc.symm.trans hp)
    exact absurd ha (hpr.not_acquires lock)
  | wake waker queue l rest hq _ =>
    refine h.of_eq rfl (fun _ _ _ hp _ => hp) ?_ rfl
    intro lock hw
    by_cases he : WaitQueue.waitOnLock lock = queue
    · subst he
      have hr : rest ≠ [] := by simpa [Sched.wake] using hw
      simp [hq,hr]
    · simpa [Sched.wake,he] using hw
  | request queue hq =>
    constructor
    · intro lock hr
      have he : queue = .waitOnLock lock := by simpa [me,Sched.modify] using hr
      obtain ⟨ha,c,hc,hac⟩ := hq lock he
      exact ⟨ha,c,by simpa [me,Sched.modify] using hc,hac⟩
    · exact h.blocked
  | switch x hx _ _ _ =>
    have hne := hi.ne_current_of_ready hx
    constructor
    · intro lock hr
      have hn := hi.idle x hne
      simp [me,Sched.switch,hn] at hr
    · intro lock hw
      cases hq : σ.me.waitQueue with
      | none => exact h.blocked lock (by simpa [Sched.switch,hq] using hw)
      | some queue =>
        by_cases he : WaitQueue.waitOnLock lock = queue
        · subst he; exact (h.request lock hq).1
        · exact h.blocked lock (by simpa [Sched.switch,hq,he] using hw)
  | resume =>
    exact h.of_eq (by simp [me,Sched.modify]) (fun _ _ _ hp _ => by simpa [me,Sched.modify] using hp)
      (fun _ hw => hw) rfl
  | exit marked next rest _ hn =>
    have hne : next ≠ σ.current := by
      have hm : next ∈ σ.ready ++ σ.waits (.tWait σ.current) := by simp [hn]
      rcases List.mem_append.mp hm with hm | hm
      · exact hi.ne_current_of_ready hm
      · exact hi.ne_current_of_waiting hm
    constructor
    · intro lock hr
      have hn := hi.idle next hne
      simp [me,Sched.exit,hn] at hr
    · exact fun lock hw => h.blocked lock (by simpa [Sched.exit] using hw)
  | create id rest _ ha _ _ =>
    have hne : σ.current ≠ id := (hi.ne_current_of_available (by simp [ha])).symm
    exact h.of_eq (by simp [me,Sched.create,hne])
      (fun _ _ _ hp _ => by simpa [me,Sched.create,hne] using hp) (fun _ hw => hw) rfl
  | kill tid hne _ _ _ _ _ =>
    have hne' := hne.symm
    exact h.of_eq (by simp [me,Sched.modify,record,hne'])
      (fun _ _ _ hp _ => by simpa [me,Sched.modify,record,hne'] using hp) (fun _ hw => hw) rfl
  | acquire lock l c v enabled hl hf _ hp hac _ =>
    refine h.setLock lock (l := some ⟨true,σ.current⟩) rfl rfl ?_ (.inr ⟨_,rfl,rfl⟩)
    intro lock' hr
    have hr' : σ.me.waitQueue = some (.waitOnLock lock') := by
      simpa [me,Sched.ret,Sched.modify,record,Sched.setLock] using hr
    obtain ⟨⟨l',hl',ha'⟩,c',hc',hac'⟩ := h.request lock' hr'
    obtain rfl : c = c' := Option.some.inj (hp.symm.trans hc')
    obtain rfl := hac.unique hac'
    obtain rfl : l = l' := Option.some.inj (hl.symm.trans hl')
    simp [hf] at ha'
  | unlock lock c _ _ hw _ _ hq =>
    exact h.setLock lock (l := some ⟨false,-1⟩) rfl rfl hq (.inl hw)
  | free lock v enabled _ hp hw =>
    refine h.setLock lock (l := none) rfl rfl (fun lock' hr => ?_) (.inl hw)
    refine h.not_request hp (by simp [Acquires]) lock' ?_
    simpa [me,Sched.ret,Sched.modify,record,Sched.setLock] using hr
  | discard queue tid rest _ _ hq =>
    refine h.of_eq rfl (fun _ _ _ hp _ => hp) ?_ rfl
    intro lock hw
    by_cases he : WaitQueue.waitOnLock lock = queue
    · subst he; simp [hq]
    · simpa [record,he] using hw

/-- A scheduler that shows no loss keeps every identifier somewhere. -/
theorem Move.complete {D : Set Defect} (hD : ∀ d ∈ losses, d ∉ D) {σ σ' : Sched} (hm : Move D σ σ')
    (h : Complete σ) : Complete σ' := by
  rcases hm.places with hp | ⟨⟨d,hd,hdD⟩,_⟩
  · exact ⟨fun t h₀ h₁ => (hp.exists_mem t).mpr (h.placed t h₀ h₁)⟩
  · exact absurd hdD (hD d hd)

/-! ### Calls that have slept -/

/-- Every suspended thread whose call must sleep has slept. -/
def Settled (D : Set Defect) (σ : Sched) : Prop := ∀ t, t ≠ σ.current → σ.SettledAt D t

def isCall (i : Inst) : Event → Bool
  | .call j _ _ => j == i
  | _ => false

theorem inCall_append {i : Inst} {n h : List Event} (hn : ∀ e ∈ n, isCall i e = false) :
    inCall i (n ++ h) = n ++ inCall i h := by
  refine List.takeWhile_append_of_pos fun e he => ?_
  have hc := hn e he
  cases e <;> simp_all [isCall]

theorem isCall_of_mem_inCall {i : Inst} {h : List Event} {e : Event} (he : e ∈ inCall i h) :
    isCall i e = false := by
  have hp := List.mem_takeWhile_imp he
  cases e <;> simp_all [isCall]

/-- Events of other calls do not change what happened during the call in progress. -/
theorem Sched.SettledAt.mono {D : Set Defect} {σ σ' : Sched} {t : Tid} {n : List Event}
    (h : σ.SettledAt D t) (hp : (σ'.slots t).pending = (σ.slots t).pending)
    (hg : (σ'.slots t).generation = (σ.slots t).generation) (hh : σ'.history = n ++ σ.history)
    (hn : ∀ e ∈ n, isCall (σ.inst t) e = false) (hw : ∀ q, σ.waits q = [] → σ'.waits q = []) :
    σ'.SettledAt D t where
  slept c queue hc hs := by
    have hi : σ'.inst t = σ.inst t := by simp [Sched.inst,hg]
    rw [hi,hh,inCall_append hn]
    exact List.mem_append_right _ (h.slept c queue (hp ▸ hc) hs)
  marked tid hc := by
    obtain ⟨g,hk⟩ := h.marked tid (hp ▸ hc)
    have hi : σ'.inst t = σ.inst t := by simp [Sched.inst,hg]
    rw [hi,hh,inCall_append hn]
    exact ⟨g,List.mem_append_right _ hk⟩
  unwaited hD lock hc := hw _ (h.unwaited hD lock (hp ▸ hc))

theorem Sched.SettledAt.of_none {D : Set Defect} {σ : Sched} {t : Tid}
    (h : (σ.slots t).pending = none) : σ.SettledAt D t :=
  ⟨fun c queue hc => by simp [h] at hc,fun tid hc => by simp [h] at hc,
    fun _ lock hc => by simp [h] at hc⟩

theorem Sched.inst_ne {σ : Sched} {t u : Tid} (h : u ≠ t) : σ.inst u ≠ σ.inst t := by
  simp [Sched.inst,h]

/-- A switch settles the thread that it suspends, and finds the next one settled. -/
theorem Settled.switch {D : Set Defect} {σ : Sched} (h : Settled D σ) (hl : LockInv σ) {x : Tid}
    (hs : ∀ c, σ.me.pending = some c → Suspends D σ c σ.me.waitQueue) (t : Tid) : (σ.switch x).SettledAt D t := by
  obtain ⟨n,hnew,hcall⟩ : ∃ n, (σ.switch x).history = n ++ σ.history ∧
      ∀ i, ∀ e ∈ n, isCall i e = false := by
    cases hq : σ.me.waitQueue with
    | none => exact ⟨[],by simp [Sched.switch,hq],by simp⟩
    | some q => exact ⟨[.slept σ.self q],by simp [Sched.switch,hq],by simp [isCall]⟩
  have hp : ((σ.switch x).slots t).pending = (σ.slots t).pending := by
    simp only [Sched.switch]; split
    · rfl
    · split <;> rfl
  have hg : ((σ.switch x).slots t).generation = (σ.slots t).generation := by
    simp only [Sched.switch]; split
    · rfl
    · split <;> rfl
  have hi : (σ.switch x).inst t = σ.inst t := by simp [Sched.inst,hg]
  constructor
  · intro c queue hpc hso
    rw [hp] at hpc
    by_cases htc : t = σ.current
    · subst htc
      have hsu := hs c hpc
      have hq : σ.me.waitQueue = some queue ∨ σ.SettledAt D σ.current := by
        cases c <;> simp_all [SleepsOn,Suspends]
        tauto
      rcases hq with hq | hset
      · have hh : (σ.switch x).history = .slept σ.self queue::σ.history := by
          simp [Sched.switch,hq]
        rw [hi,hh]
        simp [inCall,Sched.self]
      · rw [hi,hnew,inCall_append (hcall _)]
        exact List.mem_append_right _ (hset.slept c queue hpc hso)
    · rw [hi,hnew,inCall_append (hcall _)]
      exact List.mem_append_right _ ((h t htc).slept c queue hpc hso)
  · intro tid hpc
    rw [hp] at hpc
    obtain ⟨g,hk⟩ : ∃ g, Event.killed (σ.inst t) ⟨tid,g⟩ ∈ inCall (σ.inst t) σ.history := by
      by_cases htc : t = σ.current
      · subst htc; exact (hs _ hpc).marked tid hpc
      · exact (h t htc).marked tid hpc
    rw [hi,hnew,inCall_append (hcall _)]
    exact ⟨g,List.mem_append_right _ hk⟩
  · intro hD lock hpc
    rw [hp] at hpc
    have hw : σ.waits (.waitOnLock lock) = [] := by
      by_cases htc : t = σ.current
      · subst htc; exact hs _ hpc hD
      · exact (h t htc).unwaited hD lock hpc
    -- the running thread goes to the queue of a lock that nobody is about to destroy
    have hne : σ.me.waitQueue ≠ some (.waitOnLock lock) := by
      intro hq
      obtain ⟨_,c,hme,hac⟩ := hl.request lock hq
      have hsu := hs c hme
      have hk : σ.Kept D lock := by
        cases c <;> simp_all [Suspends,Acquires]
      exact hk.elim hD fun hk => hk t hpc
    cases hq : σ.me.waitQueue with
    | none => simpa [Sched.switch,hq] using hw
    | some q =>
      have hqq : WaitQueue.waitOnLock lock ≠ q := by
        rintro rfl
        exact hne hq
      simpa [Sched.switch,hq,hqq] using hw

theorem Settled.exit {D : Set Defect} {σ : Sched} (h : Settled D σ) {marked : Bool} {next : Tid}
    {rest : List Tid} (hx : next ≠ σ.current) (t : Tid) :
    (σ.exit marked next rest).SettledAt D t := by
  by_cases hc : t = σ.current
  · subst hc
    exact .of_none (by simp [Sched.exit,hx.symm])
  · have hcall : ∀ e ∈ ((σ.waits (.tWait σ.current)).map fun u =>
        Event.woken (σ.inst u) (.tWait σ.current) .threadExit).reverse ++ [.exited σ.self marked],
        isCall (σ.inst t) e = false := by
      intro e he
      simp only [List.mem_append,List.mem_reverse,List.mem_map,List.mem_singleton] at he
      rcases he with ⟨u,_,rfl⟩ | rfl <;> rfl
    refine (h t hc).mono ?_ ?_ (by simp [Sched.exit]) hcall ?_
    · simp only [Sched.exit,hc,if_false]; split <;> rfl
    · simp only [Sched.exit,hc,if_false]; split <;> rfl
    · intro q hq
      simp [Sched.exit,hq]

/-- The moves that leave the running thread running. -/
theorem Settled.of_eq {D : Set Defect} {σ σ' : Sched} (h : Settled D σ) {n : List Event}
    (hc : σ'.current = σ.current) (hh : σ'.history = n ++ σ.history)
    (hs : ∀ t, t ≠ σ.current → (σ'.slots t).pending = (σ.slots t).pending ∧
      (σ'.slots t).generation = (σ.slots t).generation)
    (hn : ∀ e ∈ n, ∀ t, t ≠ σ.current → isCall (σ.inst t) e = false)
    (hw : ∀ q, σ.waits q = [] → σ'.waits q = []) : Settled D σ' := by
  intro t ht
  rw [hc] at ht
  exact (h t ht).mono (hs t ht).1 (hs t ht).2 hh (fun e he => hn e he t ht) hw

theorem Move.settled {D : Set Defect} {σ σ' : Sched} (hm : Move D σ σ') (hi : Inv σ)
    (hl : LockInv σ) (h : Settled D σ) : Settled D σ' := by
  cases hm with
  | switch x hx _ _ hs => exact fun t _ => h.switch hl hs t
  | exit marked next rest _ hn =>
    refine fun t _ => h.exit ?_ t
    have hm : next ∈ σ.ready ++ σ.waits (.tWait σ.current) := by simp [hn]
    rcases List.mem_append.mp hm with hm | hm
    · exact hi.ne_current_of_ready hm
    · exact hi.ne_current_of_waiting hm
  | create id rest _ ha _ _ =>
    intro t ht
    by_cases he : t = id
    · exact .of_none (by simp [Sched.create,he])
    · exact (h t ht).mono (n := [_]) (by simp [Sched.create,he]) (by simp [Sched.create,he]) rfl
        (by simp [isCall]) (fun _ hw => hw)
  | call c enabled _ _ =>
    refine h.of_eq (n := [_]) rfl rfl (fun t ht => by simp [Sched.modify,record,ht]) ?_
      (fun _ hw => hw)
    intro e he t ht
    obtain rfl := List.mem_singleton.mp he
    simpa [isCall,Sched.self] using Sched.inst_ne (Ne.symm ht)
  | refuse cv lock l v enabled _ _ _ _ =>
    refine h.of_eq (n := [_,_]) rfl rfl (fun t ht => ⟨rfl,rfl⟩) ?_ (fun _ hw => hw)
    intro e he t ht
    simp only [List.mem_cons,List.not_mem_nil,or_false] at he
    rcases he with rfl | rfl
    · rfl
    · simpa [isCall,Sched.self] using Sched.inst_ne (Ne.symm ht)
  | wake waker queue l rest hq _ =>
    refine h.of_eq rfl rfl (fun t ht => ⟨rfl,rfl⟩) ?_ ?_
    · intro e he t ht
      simp only [List.mem_reverse,List.mem_map] at he
      obtain ⟨u,_,rfl⟩ := he
      rfl
    · intro q hw
      by_cases he : q = queue
      · subst he
        have hr : l = [] ∧ rest = [] := by simpa [hq] using hw
        simp [Sched.wake,hr.2]
      · simp [Sched.wake,he,hw]
  | own | passed | unlock =>
    exact h.of_eq (n := [_]) rfl rfl (fun t ht => ⟨rfl,rfl⟩) (by simp [isCall]) (fun _ hw => hw)
  | discard queue tid rest _ _ hq =>
    refine h.of_eq (n := [_]) rfl rfl (fun t ht => ⟨rfl,rfl⟩) (by simp [isCall]) ?_
    intro q hw
    by_cases he : q = queue
    · subst he; simp [hq] at hw
    · simp [record,he,hw]
  | lose | forget =>
    exact h.of_eq (n := []) rfl rfl (fun t ht => ⟨rfl,rfl⟩) (by simp) (fun _ hw => hw)
  | request | resume =>
    exact h.of_eq (n := []) rfl rfl (fun t ht => by simp [Sched.modify,ht]) (by simp)
      (fun _ hw => hw)
  | ret | free =>
    exact h.of_eq (n := [_]) rfl rfl
      (fun t ht => by simp [Sched.ret,Sched.modify,record,Sched.setLock,ht]) (by simp [isCall])
      (fun _ hw => hw)
  | acquire =>
    exact h.of_eq (n := [_,_]) rfl rfl
      (fun t ht => by simp [Sched.ret,Sched.modify,record,Sched.setLock,ht]) (by simp [isCall])
      (fun _ hw => hw)
  | kill tid =>
    refine h.of_eq (n := [_]) rfl rfl (fun t _ => ?_) (by simp [isCall]) (fun _ hw => hw)
    by_cases he : t = tid <;> simp [Sched.modify,record,he]

end Scheduler
end OsLabs

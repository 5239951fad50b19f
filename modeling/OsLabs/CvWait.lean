import OsLabs.SchedulerRun

/-!
# Waiting on a condition variable

A `cv_wait` by the owner of the lock returns with the lock acquired, in every run. It
returns only after a signal if its `thread_sleep` suspends the caller: when the lock is
released, some thread is ready to run, and the caller's `setcontext_called` is clear.
-/

namespace OsLabs
namespace CvWait

open ThreadModel Scheduler Sched SchedulerView SchedulerRefinement SchedulerRun Transition

/-- The instance was put on the queue of the cv and later taken off it by a signal. -/
def Signalled (cv : ℕ) (i : Inst) (h : List Event) : Prop :=
  ∃ newer between older waker, h = newer ++ .woken i (.waitOnCv cv) waker::
    (between ++ .slept i (.waitOnCv cv)::older) ∧ (waker = .cvSignal ∨ waker = .cvBroadcast)

/-- `cv_wait` by the owner of the lock returns only after a signal during the call. -/
def ReturnsAfterSignal (e : Event) (older : List Event) : Prop :=
  ∀ i cv lock v enabled, e = .ret i (.cvWait cv lock) v enabled →
    .passed i lock ∈ inCall i older → Signalled cv i (inCall i older)

theorem Signalled.append {cv : ℕ} {i : Inst} {h : List Event} (n : List Event)
    (hs : Signalled cv i h) : Signalled cv i (n ++ h) := by
  obtain ⟨newer,between,older,waker,rfl,hw⟩ := hs
  exact ⟨n ++ newer,between,older,waker,by simp,hw⟩

/-- The stages of a call of `cv_wait`: it has not slept on the cv, it sleeps, or it was
signalled. A thread that a `cv_destroy` discarded stands nowhere. -/
structure CvInv (σ : Sched) : Prop where
  stage : ∀ t cv lock, (σ.slots t).pending = some (.cvWait cv lock) → (∃ p, t ∈ σ.place p) →
    .slept (σ.inst t) (.waitOnCv cv) ∉ inCall (σ.inst t) σ.history ∨
    (t ∈ σ.waits (.waitOnCv cv) ∧ .slept (σ.inst t) (.waitOnCv cv) ∈ inCall (σ.inst t) σ.history) ∨
    Signalled cv (σ.inst t) (inCall (σ.inst t) σ.history)
  returns : Always ReturnsAfterSignal σ.history

/-- Moves that record no sleep and wake nobody from a cv. -/
theorem CvInv.frame {D : Set Defect} {σ σ' : Sched} {n : List Event} (h : CvInv σ) (hm : Move D σ σ')
    (hh : σ'.history = n ++ σ.history) (hn : ∀ i q, .slept i q ∉ n)
    (hr : Always ReturnsAfterSignal (n ++ σ.history))
    (hp : ∀ t cv lock, (σ'.slots t).pending = some (.cvWait cv lock) →
      (σ.slots t).pending = some (.cvWait cv lock) ∧ (σ'.slots t).generation = (σ.slots t).generation ∧
        ∀ e ∈ n, isCall (σ.inst t) e = false)
    (hw : ∀ cv, σ'.waits (.waitOnCv cv) = σ.waits (.waitOnCv cv)) : CvInv σ' where
  stage t cv lock ht hpl := by
    obtain ⟨ht,hg,hcall⟩ := hp t cv lock ht
    have hi : σ'.inst t = σ.inst t := by simp [Sched.inst,hg]
    rw [hi,hh,inCall_append hcall,hw]
    refine (h.stage t cv lock ht (hm.placed hpl)).imp (fun h₁ hm => ?_)
      (Or.imp (fun h₂ => ⟨h₂.1,List.mem_append_right _ h₂.2⟩) fun h₃ => h₃.append n)
    rcases List.mem_append.mp hm with hm | hm
    · exact hn _ _ hm
    · exact h₁ hm
  returns := hh ▸ hr

/-- The events of these moves are no returns of `cv_wait`. -/
theorem CvInv.frame_plain {D : Set Defect} {σ σ' : Sched} {n : List Event} (h : CvInv σ) (hm : Move D σ σ')
    (hh : σ'.history = n ++ σ.history)
    (hn : ∀ e ∈ n, (∀ i q, e ≠ .slept i q) ∧ ∀ older, ReturnsAfterSignal e older)
    (hp : ∀ t cv lock, (σ'.slots t).pending = some (.cvWait cv lock) →
      (σ.slots t).pending = some (.cvWait cv lock) ∧ (σ'.slots t).generation = (σ.slots t).generation ∧
        ∀ e ∈ n, isCall (σ.inst t) e = false)
    (hw : ∀ cv, σ'.waits (.waitOnCv cv) = σ.waits (.waitOnCv cv)) : CvInv σ' :=
  h.frame hm hh (fun i q hm => (hn _ hm).1 i q rfl) (h.returns.append fun e he => (hn e he).2) hp hw

theorem CvInv.call {σ : Sched} (h : CvInv σ) (c : Call) (enabled : Bool) :
    CvInv ((σ.record (.call σ.self c enabled)).modify σ.current
      fun t => { t with pending := some c }) where
  stage t cv lock ht hpl := by
    have hi : ((σ.record (.call σ.self c enabled)).modify σ.current
        fun t => { t with pending := some c }).inst t = σ.inst t := by
      by_cases ht : t = σ.current <;> simp [Sched.inst,Sched.modify,record,ht]
    have hh : ((σ.record (.call σ.self c enabled)).modify σ.current
        fun t => { t with pending := some c }).history = [.call σ.self c enabled] ++ σ.history := rfl
    rw [hi,hh]
    by_cases htc : t = σ.current
    · subst htc
      exact .inl (by simp [inCall,Sched.self])
    · have hcall : ∀ e ∈ [Event.call σ.self c enabled], isCall (σ.inst t) e = false := by
        simpa [isCall,Sched.self] using Sched.inst_ne (Ne.symm htc)
      have hp : (σ.slots t).pending = some (.cvWait cv lock) := by
        simpa [Sched.modify,record,htc] using ht
      rw [inCall_append hcall]
      exact (h.stage t cv lock hp hpl).imp (fun h₁ hm => h₁ (by simpa using hm))
        (Or.imp (fun h₂ => ⟨h₂.1,List.mem_append_right _ h₂.2⟩) fun h₃ => h₃.append _)
  returns := always_cons.mpr ⟨by simp [ReturnsAfterSignal],h.returns⟩

/-- A signal takes a prefix of the queue of the cv. -/
theorem CvInv.wake {σ : Sched} (h : CvInv σ) {waker : Waker} {queue : WaitQueue} {l rest : List Tid}
    (hq : σ.waits queue = l ++ rest) (hw : WakesQueue waker queue)
    (hpl : ∀ t, (∃ p, t ∈ (σ.wake waker queue l rest).place p) → ∃ p, t ∈ σ.place p) :
    CvInv (σ.wake waker queue l rest) := by
  have hnew : ∀ e ∈ (l.map fun t => Event.woken (σ.inst t) queue waker).reverse,
      (∀ i, isCall i e = false) ∧ (∀ i q, e ≠ .slept i q) ∧ ∀ older, ReturnsAfterSignal e older := by
    intro e he
    simp only [List.mem_reverse,List.mem_map] at he
    obtain ⟨u,_,rfl⟩ := he
    simp [isCall,ReturnsAfterSignal]
  have hh : (σ.wake waker queue l rest).history =
      (l.map fun t => Event.woken (σ.inst t) queue waker).reverse ++ σ.history := rfl
  refine ⟨fun t cv lock ht hp => ?_,by rw [hh]; exact h.returns.append fun e he => (hnew e he).2.2⟩
  change _ ∨ _ ∨ Signalled cv (σ.inst t) _
  have hi : (σ.wake waker queue l rest).inst t = σ.inst t := rfl
  rw [hi,hh,inCall_append fun e he => (hnew e he).1 _]
  rcases h.stage t cv lock ht (hpl t hp) with h₁ | ⟨ht',hm⟩ | h₃
  · refine .inl fun hm => ?_
    rcases List.mem_append.mp hm with hm | hm
    · exact (hnew _ hm).2.1 _ _ rfl
    · exact h₁ hm
  · by_cases hqq : WaitQueue.waitOnCv cv = queue
    · subst hqq
      rw [hq] at ht'
      rcases List.mem_append.mp ht' with htl | htr
      · right; right
        have hwk : Event.woken (σ.inst t) (.waitOnCv cv) waker ∈
            (l.map fun t => Event.woken (σ.inst t) (.waitOnCv cv) waker).reverse := by
          simp only [List.mem_reverse,List.mem_map]
          exact ⟨t,htl,rfl⟩
        obtain ⟨a,b,hab⟩ := List.append_of_mem hwk
        obtain ⟨c,d,hcd⟩ := List.append_of_mem hm
        exact ⟨a,b ++ c,d,waker,by rw [hab,hcd]; simp,hw⟩
      · exact .inr (.inl ⟨by simpa [Sched.wake] using htr,List.mem_append_right _ hm⟩)
    · exact .inr (.inl ⟨by simpa [Sched.wake,hqq] using ht',List.mem_append_right _ hm⟩)
  · exact .inr (.inr (h₃.append _))

theorem CvInv.switch {σ : Sched} (h : CvInv σ) {x : Tid}
    (hpl : ∀ t, (∃ p, t ∈ (σ.switch x).place p) → ∃ p, t ∈ σ.place p) : CvInv (σ.switch x) := by
  have hp : ∀ t, ((σ.switch x).slots t).pending = (σ.slots t).pending := by
    intro t
    simp only [Sched.switch]
    split
    · rfl
    · split <;> rfl
  have hinst : ∀ t, (σ.switch x).inst t = σ.inst t := by
    intro t
    simp only [Sched.inst,Sched.switch]
    split
    · rfl
    · split <;> rfl
  cases hq : σ.me.waitQueue with
  | none =>
    have hh : (σ.switch x).history = σ.history := by simp [Sched.switch,hq]
    have hw : (σ.switch x).waits = σ.waits := by simp [Sched.switch,hq]
    refine ⟨fun t cv lock ht hplaced => ?_,hh ▸ h.returns⟩
    rw [hinst,hh,hw]
    exact h.stage t cv lock (hp t ▸ ht) (hpl t hplaced)
  | some q =>
    have hh : (σ.switch x).history = [.slept σ.self q] ++ σ.history := by simp [Sched.switch,hq]
    have hcall : ∀ i, ∀ e ∈ [Event.slept σ.self q], isCall i e = false := by simp [isCall]
    refine ⟨fun t cv lock ht hplaced => ?_,?_⟩
    · rw [hp] at ht
      rw [hinst,hh,inCall_append (hcall _)]
      by_cases hsl : t = σ.current ∧ q = .waitOnCv cv
      · obtain ⟨rfl,rfl⟩ := hsl
        exact .inr (.inl ⟨by simp [Sched.switch,hq],by simp [Sched.self]⟩)
      · have hne : Event.slept (σ.inst t) (.waitOnCv cv) ≠ .slept σ.self q := by
          intro he
          obtain ⟨h₁,h₂⟩ := Event.slept.inj he
          refine hsl ⟨?_,h₂.symm⟩
          by_contra htc
          exact Sched.inst_ne (σ := σ) htc h₁
        refine (h.stage t cv lock ht (hpl t hplaced)).imp (fun h₁ hm => ?_)
          (Or.imp (fun h₂ => ⟨?_,List.mem_append_right _ h₂.2⟩) fun h₃ => h₃.append _)
        · rcases List.mem_append.mp hm with hm | hm
          · exact hne (by simpa using hm)
          · exact h₁ hm
        · by_cases hqq : WaitQueue.waitOnCv cv = q
          · subst hqq; simp [Sched.switch,hq,h₂.1]
          · simpa [Sched.switch,hq,hqq] using h₂.1
    · rw [hh]
      exact h.returns.append (by simp [ReturnsAfterSignal])

/-- The return of a `cv_wait` that has slept on the cv. -/
theorem CvInv.returns_acquire {D : Set Defect} (hD : .earlyCvWait ∉ D) {σ : Sched} (h : CvInv σ)
    (hi : Inv σ) (lock : ℕ) {c : Call} (v : ℤ) (enabled : Bool) (hc : σ.me.pending = some c)
    (hs : σ.SettledAt D σ.current) :
    ReturnsAfterSignal (.ret σ.self c v enabled) (.acquired σ.self lock::σ.history) := by
  intro i cv lock' v' enabled' he _
  obtain ⟨rfl,rfl,rfl,rfl⟩ : σ.self = i ∧ c = .cvWait cv lock' ∧ v = v' ∧ enabled = enabled' := by
    simpa using he
  have hsl := hs.slept _ (.waitOnCv cv) hc ⟨hD,rfl⟩
  have hin : inCall σ.self (.acquired σ.self lock::σ.history) =
      [.acquired σ.self lock] ++ inCall σ.self σ.history :=
    inCall_append (n := [.acquired σ.self lock]) (by simp [isCall])
  rw [hin]
  rcases h.stage σ.current cv lock' hc ⟨.running,List.mem_singleton.mpr rfl⟩ with h₁ | ⟨hw,_⟩ | h₃
  · exact absurd hsl h₁
  · exact absurd rfl (hi.ne_current_of_waiting hw)
  · exact h₃.append _

/-- A thread that is discarded stands at no other place. -/
theorem not_placed_discard {σ : Sched} (hi : Inv σ) {queue : WaitQueue} {tid : Tid} {rest : List Tid}
    (hq : σ.waits queue = tid::rest) : ¬ ∃ p, tid ∈ ({ σ with
      waits := fun q => if q = queue then rest else σ.waits q }.record (.discarded tid queue)).place p := by
  rintro ⟨p,hp⟩
  have hmem : tid ∈ σ.place (.waiting queue) := by simp [place,places,hq]
  have hnodup : (tid::rest).Nodup := hq ▸ hi.waits_nodup queue
  by_cases hpq : p = .waiting queue
  · subst hpq
    have hrest : tid ∈ rest := by simpa [place,places,record] using hp
    exact (List.nodup_cons.mp hnodup).1 hrest
  · have hold : tid ∈ σ.place p := by
      cases p with
      | waiting q =>
        have hne : q ≠ queue := fun he => hpq (he ▸ rfl)
        simpa [place,places,record,hne] using hp
      | _ => exact hp
    exact hpq (hi.exclusive.unique hold hmem)

theorem CvInv.discard {D : Set Defect} {σ : Sched} (h : CvInv σ) (hi : Inv σ) {queue : WaitQueue}
    {tid : Tid} {rest : List Tid} (hq : σ.waits queue = tid::rest) (hm : Move D σ ({ σ with
      waits := fun q => if q = queue then rest else σ.waits q }.record (.discarded tid queue))) :
    CvInv ({ σ with waits := fun q => if q = queue then rest else σ.waits q }.record
      (.discarded tid queue)) where
  stage t cv lock ht hplaced := by
    have hne : t ≠ tid := by
      rintro rfl
      exact not_placed_discard hi hq hplaced
    change .slept (σ.inst t) (.waitOnCv cv) ∉ inCall (σ.inst t) ([.discarded tid queue] ++ σ.history) ∨
      (_ ∧ .slept (σ.inst t) (.waitOnCv cv) ∈ inCall (σ.inst t) ([.discarded tid queue] ++ σ.history)) ∨
      Signalled cv (σ.inst t) (inCall (σ.inst t) ([.discarded tid queue] ++ σ.history))
    rw [inCall_append (by simp [isCall])]
    refine (h.stage t cv lock ht (hm.placed hplaced)).imp (fun h₁ hm => h₁ (by simpa using hm))
      (Or.imp (fun h₂ => ⟨?_,List.mem_append_right _ h₂.2⟩) fun h₃ => h₃.append _)
    by_cases hcq : WaitQueue.waitOnCv cv = queue
    · subst hcq
      have hmem : t ∈ tid::rest := hq ▸ h₂.1
      simpa [record] using (List.mem_cons.mp hmem).resolve_left hne
    · simpa [record,hcq] using h₂.1
  returns := always_cons.mpr ⟨by simp [ReturnsAfterSignal],h.returns⟩

theorem Move.cvInv {D : Set Defect} (hD : .earlyCvWait ∉ D) {σ σ' : Sched} (hs : Sound D σ)
    (h : CvInv σ) (hm : Move D σ σ') : CvInv σ' := by
  have hi := hs.toInv
  have hmove := hm
  cases hm with
  | call c enabled _ _ => exact h.call c enabled
  | switch x _ _ _ _ => exact h.switch fun _ => hmove.placed
  | wake waker queue l rest hq hw => exact h.wake hq hw fun _ => hmove.placed
  | own | passed | unlock =>
    exact h.frame_plain hmove (n := [_]) rfl (by simp [ReturnsAfterSignal])
      (fun t cv lock ht => ⟨ht,rfl,by simp [isCall]⟩) (fun _ => rfl)
  | discard queue tid rest _ _ hq => exact h.discard hi hq hmove
  | lose | forget =>
    exact h.frame_plain hmove (n := []) rfl (by simp) (fun t cv lock ht => ⟨ht,rfl,by simp⟩) (fun _ => rfl)
  | request | resume =>
    refine h.frame_plain hmove (n := []) rfl (by simp) (fun t cv lock ht => ?_) (fun _ => rfl)
    by_cases htc : t = σ.current <;> simp_all [Sched.modify]
  | refuse cv lock l v enabled _ hn _ _ =>
    refine h.frame hmove (n := [_,_]) rfl (by simp) ?_ (fun t cv' lock' ht => ⟨ht,rfl,?_⟩) (fun _ => rfl)
    · refine always_cons.mpr ⟨?_,always_cons.mpr ⟨by simp [ReturnsAfterSignal],h.returns⟩⟩
      intro i cv' lock' v' enabled' he hpass
      obtain ⟨rfl,_⟩ := Event.ret.inj he
      simp [inCall] at hpass
    · have ht' : (σ.slots t).pending = some (.cvWait cv' lock') := ht
      have htc : t ≠ σ.current := by
        rintro rfl
        exact absurd (hn.symm.trans ht') (by simp)
      simpa [isCall,Sched.self] using Sched.inst_ne (Ne.symm htc)
  | ret c v enabled _ _ hp =>
    refine h.frame_plain hmove (n := [_]) rfl ?_ (fun t cv lock ht => ?_) (fun _ => rfl)
    · cases c <;> simp_all [ReturnsAfterSignal,PlainReturn]
    · by_cases htc : t = σ.current <;> simp_all [Sched.ret,Sched.modify,record,isCall]
  | free =>
    refine h.frame_plain hmove (n := [_]) rfl (by simp [ReturnsAfterSignal]) (fun t cv lock ht => ?_) (fun _ => rfl)
    by_cases htc : t = σ.current <;> simp_all [Sched.ret,Sched.modify,record,Sched.setLock,isCall]
  | kill tid _ _ _ _ _ _ =>
    refine h.frame_plain hmove (n := [_]) rfl (by simp [ReturnsAfterSignal]) (fun t cv lock ht => ?_) (fun _ => rfl)
    by_cases htt : t = tid <;> simp_all [Sched.modify,record,isCall]
  | create id rest _ ha _ _ =>
    refine h.frame_plain hmove (n := [_]) rfl (by simp [ReturnsAfterSignal]) (fun t cv lock ht => ?_) (fun _ => rfl)
    by_cases hti : t = id <;> simp_all [Sched.create,isCall]
  | exit marked next rest _ hn =>
    have hnc : next ≠ σ.current := by
      have hm : next ∈ σ.ready ++ σ.waits (.tWait σ.current) := by simp [hn]
      rcases List.mem_append.mp hm with hm | hm
      · exact hi.ne_current_of_ready hm
      · exact hi.ne_current_of_waiting hm
    refine h.frame_plain hmove (n := ((σ.waits (.tWait σ.current)).map fun t =>
        Event.woken (σ.inst t) (.tWait σ.current) .threadExit).reverse ++ [.exited σ.self marked])
      (by simp [Sched.exit]) (fun e he => ?_) (fun t cv lock ht => ?_) (fun cv => by simp [Sched.exit])
    · simp only [List.mem_append,List.mem_reverse,List.mem_map,List.mem_singleton] at he
      rcases he with ⟨u,_,rfl⟩ | rfl <;> simp [ReturnsAfterSignal]
    · have htc : t ≠ σ.current := by
        rintro rfl
        simp [Sched.exit,hnc.symm] at ht
      refine ⟨?_,?_,fun e he => ?_⟩
      · by_cases htn : t = next
        · simpa [Sched.exit,htn] using ht
        · simpa [Sched.exit,htn,htc] using ht
      · by_cases htn : t = next <;> simp [Sched.exit,htn,htc]
      · simp only [List.mem_append,List.mem_reverse,List.mem_map,List.mem_singleton] at he
        rcases he with ⟨u,_,rfl⟩ | rfl <;> rfl
  | acquire lock l c v enabled hl hf hk hc hac hset =>
    have hr := h.returns_acquire hD hi lock v enabled hc hset
    refine h.frame hmove (n := [_,_]) rfl (by simp)
      (always_cons.mpr ⟨hr,always_cons.mpr ⟨by simp [ReturnsAfterSignal],h.returns⟩⟩)
      (fun t cv lock' ht => ?_) (fun _ => rfl)
    by_cases htc : t = σ.current <;>
      simp_all [Sched.ret,Sched.modify,record,Sched.setLock,isCall]

/-- When a `cv_wait` by the owner of the lock has just returned, the caller owns the lock. -/
def OwnsAtReturn (locks : ℕ → Option Lock) (h : List Event) : Prop :=
  ∀ i cv lock v enabled older, h = .ret i (.cvWait cv lock) v enabled::older →
    .passed i lock ∈ inCall i older →
    ∃ l, locks lock = some l ∧ l.isAcquired = true ∧ l.acquiredBy = i.tid

/-- A move whose last event is no return of `cv_wait`. -/
theorem ownsAtReturn_cons {locks : ℕ → Option Lock} {e : Event} {h : List Event}
    (he : ∀ i cv lock v enabled, e ≠ .ret i (.cvWait cv lock) v enabled) :
    OwnsAtReturn locks (e::h) := by
  intro i cv lock v enabled older hh
  exact absurd (List.cons.inj hh).1 (he i cv lock v enabled)

theorem OwnsAtReturn.woken {locks : ℕ → Option Lock} {h : List Event} {f : Tid → Inst}
    {queue : WaitQueue} {waker : Waker} (ho : OwnsAtReturn locks h) (l : List Tid) :
    OwnsAtReturn locks ((l.map fun t => Event.woken (f t) queue waker).reverse ++ h) := by
  induction l using List.reverseRecOn with
  | nil => exact ho
  | append_singleton l t ih =>
    simp only [List.map_append,List.reverse_append,List.map_cons,List.map_nil,List.reverse_cons,
      List.reverse_nil,List.nil_append,List.cons_append]
    exact ownsAtReturn_cons (by simp)

theorem Move.ownsAtReturn {D : Set Defect} {σ σ' : Sched} (h : OwnsAtReturn σ.locks σ.history)
    (hm : Move D σ σ') : OwnsAtReturn σ'.locks σ'.history := by
  cases hm with
  | call | own | passed | unlock | discard | free | kill | create =>
    exact ownsAtReturn_cons (by simp)
  | lose | forget | request | resume => exact h
  | wake waker queue l rest _ _ => exact h.woken l
  | exit marked next rest _ _ => exact OwnsAtReturn.woken (ownsAtReturn_cons (by simp)) _
  | switch x _ _ _ _ =>
    cases hq : σ.me.waitQueue with
    | none =>
      have hh : (σ.switch x).history = σ.history := by simp [Sched.switch,hq]
      rw [hh]
      exact h
    | some q =>
      have hh : (σ.switch x).history = .slept σ.self q::σ.history := by simp [Sched.switch,hq]
      rw [hh]
      exact ownsAtReturn_cons (by simp)
  | ret c v enabled _ _ hp =>
    refine ownsAtReturn_cons fun i cv lock v enabled he => ?_
    obtain ⟨_,rfl,_⟩ := Event.ret.inj he
    exact hp
  | refuse cv lock l v enabled _ _ _ _ =>
    intro i cv' lock' v' enabled' older hh hpass
    obtain ⟨he,rfl⟩ := List.cons.inj hh
    obtain ⟨rfl,_⟩ := Event.ret.inj he
    simp [inCall,record] at hpass
  | acquire lock l c v enabled _ _ _ _ hac _ =>
    intro i cv lock' v' enabled' older hh _
    obtain ⟨rfl,rfl,_⟩ := Event.ret.inj (List.cons.inj hh).1
    obtain rfl : lock' = lock := hac
    exact ⟨⟨true,σ.current⟩,by simp [Sched.ret,Sched.modify,record,Sched.setLock],rfl,rfl⟩

/-- When the owner of the lock calls `cv_wait`, some thread is ready or waits for the lock,
and the caller's `setcontext_called` is clear. -/
def Suspending (s : State) (a : Action) : Prop :=
  ∀ cv lock, a = .call (.cvWait cv lock) → ownsLock lock s = true →
    (s.readyQueue ≠ [] ∨ s.waitQueues (.waitOnLock lock) ≠ []) ∧ s.tcb.setcontextCalled = false

theorem threadInit_cvInv : CvInv (view threadInit) where
  stage t cv lock ht := by
    by_cases h₀ : t = 0 <;> simp [view,slot,stack,threadInit,h₀,pendingCall] at ht
  returns := always_nil

theorem ownsAtReturn_nil {locks : ℕ → Option Lock} : OwnsAtReturn locks [] := by
  intro i cv lock v enabled older hh
  exact absurd hh (by simp)

/-- In every run a `cv_wait` by the owner of the lock returns with the lock acquired by the
caller. In the runs in which it always suspends its caller, it returns only after a signal. -/
theorem cv_wait_returns (s : State) :
    (Reachable anyStep s → OwnsAtReturn s.locks s.history) ∧
      (Reachable Suspending s → Always ReturnsAfterSignal s.history) := by
  constructor
  · intro h
    obtain ⟨σ,hs,_,hinv,_⟩ := shown_of_reachable (D := Set.univ)
      (P := fun σ => OwnsAtReturn σ.locks σ.history) (fun _ _ _ _ _ d => .inl (Set.mem_univ d))
      ownsAtReturn_nil (fun _ _ _ h hm => Move.ownsAtReturn h hm) h
    cases hs with
    | view hv => subst hv; exact hinv
    | halted _ _ hh _ =>
      rw [hh]
      exact ownsAtReturn_cons (by simp)
  · intro h
    obtain ⟨σ,hs,_,hinv,_⟩ := shown_of_reachable (D := {d | d ≠ .earlyCvWait}) (P := CvInv)
      (fun s a _ _ ha d => (em (d = .earlyCvWait)).elim (fun hd => .inr (hd ▸ ha)) .inl)
      threadInit_cvInv (fun _ _ hs h hm => Move.cvInv (by simp) hs h hm) h
    cases hs with
    | view hv => subst hv; exact hinv.returns
    | halted _ _ hh _ =>
      rw [hh]
      exact always_cons.mpr ⟨by simp [ReturnsAfterSignal],hinv.returns⟩

def afterAcquire : State :=
  final step [.call (.threadCreate true),.call (.lockAcquire 0)] threadInit (by decide +kernel)

def afterSleep : State := final step [.call (.cvWait 0 0)] afterAcquire (by decide +kernel)

/-- The main thread waits, thread 1 signals and the main thread goes on. -/
def afterSignal : State :=
  final step [.run,.run,.run,.call (.lockAcquire 0),.call (.cvSignal 0 0),.call (.lockRelease 0),
    .call (.threadYield (-1)),.run,.run] afterSleep (by decide +kernel)

theorem afterSignal_cv_wait_returned :
    afterSignal.history.head? = some (.ret ⟨0,0⟩ (.cvWait 0 0) 0 true) ∧
    .passed ⟨0,0⟩ 0 ∈ inCall ⟨0,0⟩ afterSignal.history.tail ∧
    OwnsAtReturn afterSignal.locks afterSignal.history ∧
    Always ReturnsAfterSignal afterSignal.history := by
  have hr : Reachable Suspending afterSignal := by
    refine reachable_final (.next (reachable_final .init ?_) _ ?_ _) ?_
    · simp [Suspending]
    · rintro cv lock h _
      obtain ⟨rfl,rfl⟩ : cv = 0 ∧ lock = 0 := by simpa [eq_comm] using h
      decide +kernel
    · simp [Suspending]
  exact ⟨by decide +kernel,by decide +kernel,(cv_wait_returns _).1 (hr.mono fun _ _ _ => trivial),
    (cv_wait_returns _).2 hr⟩

/-- The main thread is alone when it waits: nobody can signal. -/
def afterWaitAlone : State :=
  final step [.call (.lockAcquire 0),.call (.cvWait 0 0),.run] threadInit (by decide +kernel)

theorem waitAlone_returns_unsignalled : Reachable anyStep afterWaitAlone ∧
    ¬ Always ReturnsAfterSignal afterWaitAlone.history := by
  refine ⟨reachable_final .init fun _ _ _ => trivial,fun h => ?_⟩
  have hmem : .ret ⟨0,0⟩ (.cvWait 0 0) 0 true ∈ afterWaitAlone.history := by decide +kernel
  have hnone : ∀ e ∈ afterWaitAlone.history, (match e with | .woken _ _ _ => false | _ => true) = true := by
    decide +kernel
  have hpass : .passed ⟨0,0⟩ 0 ∈ inCall ⟨0,0⟩ afterWaitAlone.history.tail := by decide +kernel
  have hhead : afterWaitAlone.history =
      .ret ⟨0,0⟩ (.cvWait 0 0) 0 true::afterWaitAlone.history.tail := by decide +kernel
  obtain ⟨newer,between,older,waker,hs,_⟩ :=
    h _ _ ⟨[],hhead.symm⟩ ⟨0,0⟩ 0 0 0 true rfl hpass
  have hw : Event.woken ⟨0,0⟩ (.waitOnCv 0) waker ∈ inCall ⟨0,0⟩ afterWaitAlone.history.tail := by
    rw [hs]
    simp
  have hw' := hnone _ (List.mem_of_mem_tail ((List.takeWhile_sublist _).subset hw))
  simp at hw'

end CvWait
end OsLabs

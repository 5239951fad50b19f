import OsLabs.SchedulerRun

/-!
# Waiting for a thread

`thread_wait` does not look at the result of `thread_sleep`, so it returns at once when the
ready queue is empty or when the caller's `setcontext_called` was left set. Otherwise it
returns after the instance that owned the identifier at the call has exited.
-/

namespace OsLabs
namespace ThreadWait

open ThreadModel Scheduler Sched SchedulerView SchedulerRefinement SchedulerRun Transition

/-- What happened before the last call of the instance. -/
def beforeCall (i : Inst) (h : List Event) : List Event := (h.dropWhile fun e => !isCall i e).tail

theorem beforeCall_append {i : Inst} {n h : List Event} (hn : ∀ e ∈ n, isCall i e = false) :
    beforeCall i (n ++ h) = beforeCall i h := by
  rw [beforeCall,List.dropWhile_append_of_pos fun e he => by simp [hn e he]]
  rfl

theorem beforeCall_call {i : Inst} {c : Call} {enabled : Bool} {h : List Event} :
    beforeCall i (.call i c enabled::h) = h := by
  simp [beforeCall,isCall]

/-- A history is the call in progress, the events during it and the ones before it. -/
theorem beforeCall_eq {i : Inst} {c : Call} {enabled : Bool} {h older : List Event}
    (hh : h = inCall i h ++ .call i c enabled::older) : beforeCall i h = older := by
  rw [hh,beforeCall_append fun e he => isCall_of_mem_inCall he,beforeCall_call]

/-- `thread_wait` returns its argument only after the instance that owned the identifier at the
call has exited during the call. -/
def ReturnsAfterExit (e : Event) (older : List Event) : Prop :=
  ∀ i tid enabled, e = .ret i (.threadWait tid) tid enabled → 0 ≤ tid →
    ∃ newer enabled' before marked, older = newer ++ .call i (.threadWait tid) enabled'::before ∧
      (∀ e ∈ newer, isCall i e = false) ∧ .exited (ownerAt tid before) marked ∈ newer

/-- The three stages of a call of `thread_wait`: it has not slept yet, it sleeps, or the thread
it waits for has exited. -/
structure WaitInv (σ : Sched) : Prop where
  stage : ∀ t tid, (σ.slots t).pending = some (.threadWait tid) →
    (t = σ.current ∧ .slept (σ.inst t) (.tWait tid) ∉ inCall (σ.inst t) σ.history ∧
      ownerAt tid (beforeCall (σ.inst t) σ.history) = σ.inst tid) ∨
    (t ∈ σ.waits (.tWait tid) ∧ (σ.slots tid).tState ≠ .notAssigned ∧
      ownerAt tid (beforeCall (σ.inst t) σ.history) = σ.inst tid) ∨
    ∃ marked, .exited (ownerAt tid (beforeCall (σ.inst t) σ.history)) marked ∈
      inCall (σ.inst t) σ.history
  returns : Always ReturnsAfterExit σ.history

/-- Moves of the running thread that keep it running, and end and create no thread. -/
theorem WaitInv.frame {σ σ' : Sched} {n : List Event} (h : WaitInv σ)
    (hh : σ'.history = n ++ σ.history) (hc : σ'.current = σ.current)
    (hn : ∀ e ∈ n, (∀ i q, e ≠ .slept i q) ∧
      ∀ i tid enabled, e ≠ .ret i (.threadWait tid) tid enabled ∨ tid < 0)
    (hp : ∀ t tid, (σ'.slots t).pending = some (.threadWait tid) →
      (σ.slots t).pending = some (.threadWait tid) ∧ ∀ e ∈ n, isCall (σ.inst t) e = false)
    (hg : ∀ t, (σ'.slots t).generation = (σ.slots t).generation)
    (hs : ∀ t, (σ'.slots t).tState = (σ.slots t).tState)
    (hw : ∀ tid, σ'.waits (.tWait tid) = σ.waits (.tWait tid)) : WaitInv σ' where
  stage t tid ht := by
    obtain ⟨ht,hcall⟩ := hp t tid ht
    have hi : ∀ t, σ'.inst t = σ.inst t := fun t => by simp [Sched.inst,hg]
    rw [hc,hi,hi,hh,inCall_append hcall,beforeCall_append hcall,hw,hs]
    refine (h.stage t tid ht).imp (fun h₁ => ⟨h₁.1,?_,h₁.2.2⟩) (Or.imp_right fun h₃ => ?_)
    · intro hm
      rcases List.mem_append.mp hm with hm | hm
      · exact (hn _ hm).1 _ _ rfl
      · exact h₁.2.1 hm
    · obtain ⟨marked,hm⟩ := h₃
      exact ⟨marked,List.mem_append_right _ hm⟩
  returns := by
    rw [hh]
    refine h.returns.append fun e he older i tid enabled hr h₀ => ?_
    rcases (hn e he).2 i tid enabled with hne | hlt
    · exact absurd hr hne
    · exact absurd h₀ (not_le.mpr hlt)

theorem WaitInv.call {σ : Sched} (h : WaitInv σ) (hi : HistoryInv σ) (c : Call) (enabled : Bool) :
    WaitInv ((σ.record (.call σ.self c enabled)).modify σ.current
      fun t => { t with pending := some c }) where
  stage t tid ht := by
    let σ' := (σ.record (.call σ.self c enabled)).modify σ.current fun t => { t with pending := some c }
    have hinst : ∀ t, σ'.inst t = σ.inst t := by
      intro t
      by_cases ht : t = σ.current <;> simp [σ',Sched.inst,Sched.modify,record,ht]
    have hstate : ∀ t, (σ'.slots t).tState = (σ.slots t).tState := by
      intro t
      by_cases ht : t = σ.current <;> simp [σ',Sched.modify,record,ht]
    have hh : σ'.history = [.call σ.self c enabled] ++ σ.history := rfl
    change (t = σ'.current ∧ .slept (σ'.inst t) (.tWait tid) ∉ inCall (σ'.inst t) σ'.history ∧
      ownerAt tid (beforeCall (σ'.inst t) σ'.history) = σ'.inst tid) ∨
      (t ∈ σ'.waits (.tWait tid) ∧ (σ'.slots tid).tState ≠ .notAssigned ∧
        ownerAt tid (beforeCall (σ'.inst t) σ'.history) = σ'.inst tid) ∨
      ∃ marked, .exited (ownerAt tid (beforeCall (σ'.inst t) σ'.history)) marked ∈
        inCall (σ'.inst t) σ'.history
    rw [hinst,hinst,hh,hstate]
    by_cases htc : t = σ.current
    · subst htc
      refine .inl ⟨rfl,by simp [inCall,Sched.self],?_⟩
      have hb : beforeCall (σ.inst σ.current) ([.call σ.self c enabled] ++ σ.history) = σ.history :=
        beforeCall_call
      rw [hb]
      exact hi.counted tid
    · have hcall : ∀ e ∈ [Event.call σ.self c enabled], isCall (σ.inst t) e = false := by
        simpa [isCall,Sched.self] using Sched.inst_ne (Ne.symm htc)
      rw [inCall_append hcall,beforeCall_append hcall]
      have hp : (σ.slots t).pending = some (.threadWait tid) := by
        simpa [Sched.modify,record,htc] using ht
      refine (h.stage t tid hp).imp (fun h₁ => absurd h₁.1 htc) (Or.imp_right fun h₃ => ?_)
      obtain ⟨marked,hm⟩ := h₃
      exact ⟨marked,List.mem_append_right _ hm⟩
  returns := always_cons.mpr ⟨by simp [ReturnsAfterExit],h.returns⟩

theorem WaitInv.switch {D : Set Defect} {σ : Sched} (h : WaitInv σ) {x : Tid}
    (hs : ∀ c, σ.me.pending = some c → Suspends D σ c σ.me.waitQueue) :
    WaitInv (σ.switch x) := by
  obtain ⟨n,hh,hnew⟩ : ∃ n, (σ.switch x).history = n ++ σ.history ∧
      ∀ e ∈ n, (∀ i, isCall i e = false) ∧ ∀ older, ReturnsAfterExit e older := by
    cases hq : σ.me.waitQueue with
    | none => exact ⟨[],by simp [Sched.switch,hq],by simp⟩
    | some q =>
      exact ⟨[.slept σ.self q],by simp [Sched.switch,hq],by simp [isCall,ReturnsAfterExit]⟩
  have hp : ∀ t, ((σ.switch x).slots t).pending = (σ.slots t).pending := by
    intro t
    simp only [Sched.switch]
    split
    · rfl
    · split <;> rfl
  have hinst : ∀ t, (σ.switch x).inst t = σ.inst t := by
    intro t
    simp only [Sched.inst,Sched.switch]
    split
    · rfl
    · split <;> rfl
  have hlive : ∀ t, (σ.slots t).tState ≠ .notAssigned →
      ((σ.switch x).slots t).tState ≠ .notAssigned := by
    intro t ht
    simp only [Sched.switch]
    split
    · simp
    · split
      · simp
      · exact ht
  have hwaits : ∀ t tid, t ∈ σ.waits (.tWait tid) → t ∈ (σ.switch x).waits (.tWait tid) := by
    intro t tid ht
    cases hq : σ.me.waitQueue with
    | none => simpa [Sched.switch,hq] using ht
    | some q =>
      by_cases hqq : WaitQueue.tWait tid = q
      · subst hqq; simp [Sched.switch,hq,ht]
      · simpa [Sched.switch,hq,hqq] using ht
  refine ⟨fun t tid ht => ?_,by rw [hh]; exact h.returns.append fun e he => (hnew e he).2⟩
  rw [hp] at ht
  rw [hinst,hinst,hh,inCall_append fun e he => (hnew e he).1 _,
    beforeCall_append fun e he => (hnew e he).1 _]
  rcases h.stage t tid ht with ⟨rfl,_,ho⟩ | ⟨hw,hlv,ho⟩ | ⟨marked,hm⟩
  · obtain ⟨hq,hlv⟩ := hs _ ht
    refine .inr (.inl ⟨?_,hlive tid hlv,ho⟩)
    simp [Sched.switch,hq]
  · exact .inr (.inl ⟨hwaits t tid hw,hlive tid hlv,ho⟩)
  · exact .inr (.inr ⟨marked,List.mem_append_right _ hm⟩)

theorem WaitInv.exit {σ : Sched} (h : WaitInv σ) (hi : Inv σ) {marked : Bool} {next : Tid}
    {rest : List Tid} (hn : σ.ready ++ σ.waits (.tWait σ.current) = next::rest) :
    WaitInv (σ.exit marked next rest) := by
  have hnc : next ≠ σ.current := by
    have hm : next ∈ σ.ready ++ σ.waits (.tWait σ.current) := by simp [hn]
    rcases List.mem_append.mp hm with hm | hm
    · exact hi.ne_current_of_ready hm
    · exact hi.ne_current_of_waiting hm
  have hh : (σ.exit marked next rest).history = ((σ.waits (.tWait σ.current)).map fun t =>
      Event.woken (σ.inst t) (.tWait σ.current) .threadExit).reverse ++ [.exited σ.self marked] ++
      σ.history := by simp [Sched.exit]
  have hnew : ∀ e ∈ ((σ.waits (.tWait σ.current)).map fun t =>
      Event.woken (σ.inst t) (.tWait σ.current) .threadExit).reverse ++ [.exited σ.self marked],
      (∀ i, isCall i e = false) ∧ ∀ older, ReturnsAfterExit e older := by
    intro e he
    simp only [List.mem_append,List.mem_reverse,List.mem_map,List.mem_singleton] at he
    rcases he with ⟨u,_,rfl⟩ | rfl <;> simp [isCall,ReturnsAfterExit]
  have hinst : ∀ t, (σ.exit marked next rest).inst t = σ.inst t := by
    intro t
    simp only [Sched.inst,Sched.exit]
    split
    · rfl
    · split <;> rfl
  refine ⟨fun t tid ht => ?_,by rw [hh]; exact h.returns.append fun e he => (hnew e he).2⟩
  have htc : t ≠ σ.current := by
    rintro rfl
    simp [Sched.exit,hnc.symm] at ht
  have hp : (σ.slots t).pending = some (.threadWait tid) := by
    by_cases htn : t = next
    · simpa [Sched.exit,htn] using ht
    · simpa [Sched.exit,htn,htc] using ht
  rw [hinst,hinst,hh,inCall_append fun e he => (hnew e he).1 _,
    beforeCall_append fun e he => (hnew e he).1 _]
  rcases h.stage t tid hp with ⟨rfl,_⟩ | ⟨hw,hlv,ho⟩ | ⟨m,hm⟩
  · exact absurd rfl htc
  · by_cases hti : tid = σ.current
    · -- the thread that `t` waits for is the one that exits
      refine .inr (.inr ⟨marked,?_⟩)
      rw [ho,hti]
      simp [Sched.self]
    · refine .inr (.inl ⟨?_,?_,ho⟩)
      · simpa [Sched.exit,hti] using hw
      · by_cases htn : tid = next
        · simp [Sched.exit,htn]
        · simpa [Sched.exit,htn,hti] using hlv
  · exact .inr (.inr ⟨m,List.mem_append_right _ hm⟩)

theorem WaitInv.create {σ : Sched} (h : WaitInv σ) (hi : Inv σ) {id : Tid} {rest : List Tid}
    {stack : Bool} (ha : σ.available = id::rest)
    (hc : σ.me.pending = some (.threadCreate stack)) : WaitInv (σ.create id rest) := by
  have hfree : (σ.slots id).tState = .notAssigned := hi.free id (by simp [ha])
  refine ⟨fun t tid ht => ?_,always_cons.mpr ⟨by simp [ReturnsAfterExit],h.returns⟩⟩
  have hti : t ≠ id := by
    rintro rfl
    simp [Sched.create] at ht
  have hp : (σ.slots t).pending = some (.threadWait tid) := by simpa [Sched.create,hti] using ht
  have hinst : (σ.create id rest).inst t = σ.inst t := by simp [Sched.inst,Sched.create,hti]
  have hh : (σ.create id rest).history = [.created ⟨id,(σ.slots id).generation+1⟩] ++ σ.history := rfl
  have hcall : ∀ e ∈ [Event.created ⟨id,(σ.slots id).generation+1⟩], isCall (σ.inst t) e = false := by
    simp [isCall]
  rw [hinst,hh,inCall_append hcall,beforeCall_append hcall]
  rcases h.stage t tid hp with ⟨rfl,_⟩ | ⟨hw,hlv,ho⟩ | ⟨m,hm⟩
  · exact absurd (hc.symm.trans hp) (by simp)
  · have htid : tid ≠ id := by
      rintro rfl
      exact hlv hfree
    refine .inr (.inl ⟨hw,by simpa [Sched.create,htid] using hlv,?_⟩)
    rw [ho]
    simp [Sched.inst,Sched.create,htid]
  · exact .inr (.inr ⟨m,List.mem_append_right _ hm⟩)

/-- A return of `thread_wait` that has slept. -/
theorem WaitInv.ret {D : Set Defect} (hD : .earlyWait ∉ D) {σ : Sched} (h : WaitInv σ)
    (hs : Sound D σ) {c : Call} {v : ℤ} (enabled : Bool) (hc : σ.me.pending = some c)
    (hp : PlainReturn D σ c v) : ReturnsAfterExit (.ret σ.self c v enabled) σ.history := by
  intro i tid enabled' he h₀
  obtain ⟨rfl,rfl,rfl,rfl⟩ : σ.self = i ∧ c = .threadWait tid ∧ v = tid ∧ enabled = enabled' := by
    simpa using he
  have hsl := (hp h₀ rfl).slept _ (.tWait v) hc ⟨hD,rfl⟩
  obtain ⟨enabled',before,hb⟩ := hs.matched σ.current _ hc
  have hbc := beforeCall_eq hb
  rcases h.stage σ.current v hc with ⟨_,hn,_⟩ | ⟨hw,_⟩ | ⟨marked,hm⟩
  · exact absurd hsl hn
  · exact absurd rfl (hs.ne_current_of_waiting hw)
  · exact ⟨inCall σ.self σ.history,enabled',before,marked,hb,fun e he => isCall_of_mem_inCall he,
      hbc ▸ hm⟩

theorem Move.waitInv {D : Set Defect} (hD : .earlyWait ∉ D) {σ σ' : Sched} (hs : Sound D σ)
    (h : WaitInv σ) (hm : Move D σ σ') : WaitInv σ' := by
  cases hm with
  | call c enabled _ _ => exact h.call hs.toHistoryInv c enabled
  | switch x _ _ _ hsu => exact h.switch hsu
  | exit marked next rest _ hn => exact h.exit hs.toInv hn
  | create id rest _ ha hc _ => exact h.create hs.toInv ha hc
  | own | passed | unlock =>
    exact h.frame (n := [_]) rfl rfl (by simp) (fun t tid ht => ⟨ht,by simp [isCall]⟩)
      (fun _ => rfl) (fun _ => rfl) (fun _ => rfl)
  | discard queue _ rest _ hd _ =>
    refine h.frame (n := [_]) rfl rfl (by simp) (fun t tid ht => ⟨ht,by simp [isCall]⟩)
      (fun _ => rfl) (fun _ => rfl) (fun tid => ?_)
    have hne : WaitQueue.tWait tid ≠ queue := by
      rintro rfl
      exact hd
    simp [record,hne]
  | lose | forget =>
    exact h.frame (n := []) rfl rfl (by simp) (fun t tid ht => ⟨ht,by simp⟩)
      (fun _ => rfl) (fun _ => rfl) (fun _ => rfl)
  | request | resume =>
    refine h.frame (n := []) rfl rfl (by simp) (fun t tid ht => ⟨?_,by simp⟩)
      (fun t => ?_) (fun t => ?_) (fun _ => rfl) <;>
    · by_cases htc : t = σ.current <;> simp_all [Sched.modify]
  | refuse cv lock l v enabled _ hn _ _ =>
    refine h.frame (n := [_,_]) rfl rfl (by simp) (fun t tid ht => ⟨ht,?_⟩)
      (fun _ => rfl) (fun _ => rfl) (fun _ => rfl)
    have ht' : (σ.slots t).pending = some (.threadWait tid) := ht
    have htc : t ≠ σ.current := by
      rintro rfl
      exact absurd (hn.symm.trans ht') (by simp)
    simpa [isCall,Sched.self] using Sched.inst_ne (Ne.symm htc)
  | wake waker queue l rest hq hw =>
    refine h.frame rfl rfl (fun e he => ?_) (fun t tid ht => ⟨ht,fun e he => ?_⟩)
      (fun _ => rfl) (fun _ => rfl) (fun tid => ?_)
    · simp only [List.mem_reverse,List.mem_map] at he
      obtain ⟨u,_,rfl⟩ := he
      simp
    · simp only [List.mem_reverse,List.mem_map] at he
      obtain ⟨u,_,rfl⟩ := he
      rfl
    · have hne : WaitQueue.tWait tid ≠ queue := by
        rintro rfl
        exact hw
      simp [Sched.wake,hne]
  | acquire lock l c v enabled _ _ _ _ hac _ =>
    refine h.frame (n := [_,_]) rfl rfl ?_ (fun t tid ht => ⟨?_,by simp [isCall]⟩)
      (fun t => ?_) (fun t => ?_) (fun _ => rfl)
    · cases c <;> simp_all [Acquires]
    all_goals
      by_cases htc : t = σ.current <;> simp_all [Sched.ret,Sched.modify,record,Sched.setLock]
  | free =>
    refine h.frame (n := [_]) rfl rfl (by simp) (fun t tid ht => ⟨?_,by simp [isCall]⟩)
      (fun t => ?_) (fun t => ?_) (fun _ => rfl) <;>
    · by_cases htc : t = σ.current <;> simp_all [Sched.ret,Sched.modify,record,Sched.setLock]
  | kill tid _ _ _ _ _ _ =>
    refine h.frame (n := [_]) rfl rfl (by simp) (fun t tid' ht => ⟨?_,by simp [isCall]⟩)
      (fun t => ?_) (fun t => ?_) (fun _ => rfl) <;>
    · by_cases htt : t = tid <;> simp_all [Sched.modify,record]
  | ret c v enabled hk hc hp =>
    -- the events of a return of `thread_wait` are not covered by the frame
    have hr := h.ret hD hs enabled hc hp
    have hf : WaitInv ({ (σ.ret c v enabled) with history := σ.history }) := by
      refine h.frame (n := []) rfl rfl (by simp) (fun t tid ht => ⟨?_,by simp⟩)
        (fun t => ?_) (fun t => ?_) (fun _ => rfl) <;>
      · by_cases htc : t = σ.current <;> simp_all [Sched.ret,Sched.modify,record]
    refine ⟨fun t tid ht => ?_,always_cons.mpr ⟨hr,h.returns⟩⟩
    have hst := hf.stage t tid ht
    have hcall : ∀ e ∈ [Event.ret σ.self c v enabled], isCall ((σ.ret c v enabled).inst t) e = false := by
      simp [isCall]
    have hh : (σ.ret c v enabled).history = [.ret σ.self c v enabled] ++ σ.history := rfl
    rw [hh,inCall_append hcall,beforeCall_append hcall]
    refine hst.imp (fun h₁ => ⟨h₁.1,?_,h₁.2.2⟩) (Or.imp_right fun h₃ => ?_)
    · intro hm
      rcases List.mem_append.mp hm with hm | hm
      · simp at hm
      · exact h₁.2.1 hm
    · obtain ⟨marked,hm⟩ := h₃
      exact ⟨marked,List.mem_append_right _ hm⟩

/-- Every call of `thread_wait` that passes its checks finds a ready thread to run and the
caller's `setcontext_called` clear. -/
def Suspending (s : State) (a : Action) : Prop :=
  ∀ tid, a = .call (.threadWait tid) → waitsFor tid s →
    s.readyQueue ≠ [] ∧ s.tcb.setcontextCalled = false

theorem threadInit_waitInv : WaitInv (view threadInit) where
  stage t tid ht := by
    by_cases h₀ : t = 0 <;> simp [view,slot,stack,threadInit,h₀,pendingCall] at ht
  returns := always_nil

/-- In the runs in which `thread_wait` always suspends its caller, it returns its argument only
after the instance that owned it at the call has exited. -/
theorem wait_returns_after_exit {s : State} (h : Reachable Suspending s) :
    Always ReturnsAfterExit s.history := by
  obtain ⟨σ,hs,_,hinv,_⟩ := shown_of_reachable (D := {d | d ≠ .earlyWait}) (P := WaitInv)
    (fun s a _ _ ha d => (em (d = .earlyWait)).elim (fun hd => .inr (hd ▸ ha)) .inl)
    threadInit_waitInv (fun _ _ hs h hm => Move.waitInv (by simp) hs h hm) h
  cases hs with
  | view hv => subst hv; exact hinv.returns
  | halted _ _ hh _ =>
    rw [hh]
    exact always_cons.mpr ⟨by simp [ReturnsAfterExit],hinv.returns⟩

theorem create_runs : (exec step [.call (.threadCreate true)] threadInit).isSome = true := by
  decide +kernel

def afterCreate : State := final step [.call (.threadCreate true)] threadInit create_runs

def afterSleep : State := final step [.call (.threadWait 1)] afterCreate (by decide +kernel)

def afterWait : State :=
  final step [.run,.run,.run,.call .threadExit,.run] afterSleep (by decide +kernel)

theorem afterWait_returns_after_exit :
    .ret ⟨0,0⟩ (.threadWait 1) 1 true ∈ afterWait.history ∧ Always ReturnsAfterExit afterWait.history := by
  refine ⟨by decide +kernel,wait_returns_after_exit (reachable_final (.next (.next .init _ ?_ _) _ ?_ _) ?_)⟩
  · simp [Suspending]
  · rintro tid _ _
    decide +kernel
  · simp [Suspending]

/-- Thread 1 waits for the main thread, so the ready queue is empty when the main thread waits
for thread 1. -/
def waitForWaiter : List Action :=
  [.call (.threadCreate true),.call (.threadYield 1),.run,.run,.run,.call (.threadWait 0),.run,
    .call (.threadWait 1)]

def afterWaitForWaiter : State := final step waitForWaiter threadInit (by decide +kernel)

theorem waitForWaiter_returns_early : Reachable anyStep afterWaitForWaiter ∧
    ¬ Always ReturnsAfterExit afterWaitForWaiter.history := by
  refine ⟨reachable_final .init fun _ _ _ => trivial,fun h => ?_⟩
  have hmem : .ret ⟨0,0⟩ (.threadWait 1) 1 true ∈ afterWaitForWaiter.history := by decide +kernel
  have hnone : ∀ e ∈ afterWaitForWaiter.history, (match e with | .exited _ _ => false | _ => true) = true := by
    decide +kernel
  obtain ⟨pre,older,ho⟩ := List.append_of_mem hmem
  obtain ⟨newer,_,before,marked,hn,_,hx⟩ := h _ older ⟨pre,ho.symm⟩ ⟨0,0⟩ 1 true rfl (by decide)
  have hx' := hnone (.exited (ownerAt 1 before) marked) (by rw [ho,hn]; simp [hx])
  simp at hx'

end ThreadWait
end OsLabs

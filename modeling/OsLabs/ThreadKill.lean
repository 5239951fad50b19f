import OsLabs.SchedulerRun

/-!
# Kill marks

A thread that was marked does nothing any more but exit, and no thread exits because of
a mark that was meant for an earlier owner of its identifier. The mark and not the return
of `thread_kill` decides which thread that is: between the two, interrupts are enabled,
and the identifier can change its owner.
-/

namespace OsLabs
namespace ThreadKill

open ThreadModel Scheduler Sched SchedulerView SchedulerRun Transition

def isMark : Event → Bool
  | .killed _ _ => true
  | _ => false

/-- The instances that were marked, latest first. -/
def kills : List Event → List Inst
  | [] => []
  | .killed _ target::h => target::kills h
  | _::h => kills h

/-- A mark is set on the owner of the identifier, and a `thread_kill` that returns its argument
has set one during the call. -/
structure KillMarks (e : Event) (older : List Event) : Prop where
  owner : ∀ i target, e = .killed i target → target = ownerAt target.tid older
  returned : ∀ i tid enabled, e = .ret i (.threadKill tid) tid enabled →
    ∃ g, .killed i ⟨tid,g⟩ ∈ inCall i older

/-- What an event may be, after what happened before it: a marked instance only exits, and
only a marked instance exits because of a mark. -/
def KillFinal (e : Event) (older : List Event) : Prop :=
  (∀ k ∈ kills older, actor e = some k → e = .exited k true) ∧
    ∀ k, e = .exited k true → k ∈ kills older

theorem kills_cons {e : Event} {h : List Event} (he : isMark e = false) : kills (e::h) = kills h := by
  cases e with
  | killed i target => cases he
  | _ => rfl

theorem kills_append {n h : List Event} (hn : ∀ e ∈ n, isMark e = false) :
    kills (n ++ h) = kills h := by
  induction n with
  | nil => rfl
  | cons e n ih =>
    rw [List.cons_append,kills_cons (hn e (by simp)),ih fun e' he' => hn e' (by simp [he'])]

theorem killFinal_append {n h : List Event} (ha : Always KillFinal h)
    (hn : ∀ e ∈ n, isMark e = false) (hf : ∀ e ∈ n, KillFinal e h) :
    Always KillFinal (n ++ h) := by
  induction n with
  | nil => exact ha
  | cons e n ih =>
    have hk := kills_append (h := h) fun e' he' => hn e' (List.mem_cons_of_mem e he')
    refine always_cons.mpr ⟨?_,ih (fun e' he' => hn e' (by simp [he'])) fun e' he' => hf e' (by simp [he'])⟩
    have he := hf e (by simp)
    rw [KillFinal,← hk] at he
    exact he

structure KillInv (σ : Sched) : Prop where
  marked : ∀ t, (σ.slots t).killOnNextRun = true → σ.inst t ∈ kills σ.history
  dead : ∀ k ∈ kills σ.history, k.generation < (σ.slots k.tid).generation ∨
    k.generation = (σ.slots k.tid).generation ∧
      ((σ.slots k.tid).killOnNextRun = true ∨ (σ.slots k.tid).tState = .notAssigned)
  final : Always KillFinal σ.history

/-- The running thread was not marked before, unless it is marked now. -/
theorem KillInv.self_notMem {σ : Sched} (h : KillInv σ) (hi : Inv σ)
    (hk : σ.me.killOnNextRun = false) : σ.self ∉ kills σ.history := by
  intro hm
  rcases h.dead _ hm with hlt | ⟨_,hm | hn⟩
  · exact absurd hlt (lt_irrefl _)
  · exact absurd (hk.symm.trans hm) (by simp)
  · exact absurd (hi.current_running.symm.trans hn) (by simp)

/-- Moves that neither mark, end nor create a thread. -/
theorem KillInv.frame {σ σ' : Sched} {n : List Event} (h : KillInv σ) (hi : Inv σ)
    (hh : σ'.history = n ++ σ.history)
    (hn : ∀ e ∈ n, isMark e = false ∧ (∀ k m, e ≠ .exited k m) ∧
      (actor e = none ∨ actor e = some σ.self ∧ σ.me.killOnNextRun = false))
    (hg : ∀ t, (σ'.slots t).generation = (σ.slots t).generation)
    (hk : ∀ t, (σ'.slots t).killOnNextRun = (σ.slots t).killOnNextRun)
    (hs : ∀ t, (σ.slots t).tState = .notAssigned → (σ'.slots t).tState = .notAssigned) :
    KillInv σ' := by
  have hkills : kills σ'.history = kills σ.history := by
    rw [hh]
    exact kills_append fun e hm => (hn e hm).1
  refine ⟨fun t ht => ?_,fun k hm => ?_,?_⟩
  · rw [hkills]
    have hi : σ'.inst t = σ.inst t := by simp [Sched.inst,hg]
    rw [hi]
    exact h.marked t (hk t ▸ ht)
  · rw [hkills] at hm
    rw [hg,hk]
    exact (h.dead k hm).imp_right (And.imp_right (Or.imp_right (hs _)))
  · rw [hh]
    refine killFinal_append h.final (fun e hm => (hn e hm).1) fun e hm => ⟨fun k hk ha => ?_,?_⟩
    · rcases (hn e hm).2.2 with ha' | ⟨ha',hu⟩
      · exact absurd (ha'.symm.trans ha) (by simp)
      · obtain rfl : σ.self = k := Option.some.inj (ha'.symm.trans ha)
        exact absurd hk (h.self_notMem hi hu)
    · exact fun k hx => absurd hx ((hn e hm).2.1 k true)

theorem KillInv.exit {σ : Sched} (h : KillInv σ) (hi : Inv σ) {marked : Bool} {next : Tid}
    {rest : List Tid} (hm : σ.me.killOnNextRun = marked)
    (hn : σ.ready ++ σ.waits (.tWait σ.current) = next::rest) :
    KillInv (σ.exit marked next rest) := by
  obtain ⟨hnc,hnr⟩ : next ≠ σ.current ∧ (σ.slots next).tState = .ready := by
    have hm : next ∈ σ.ready ++ σ.waits (.tWait σ.current) := by simp [hn]
    rcases List.mem_append.mp hm with hm | hm
    · exact ⟨hi.ne_current_of_ready hm,hi.ready next hm⟩
    · exact ⟨hi.ne_current_of_waiting hm,hi.waiting _ next hm⟩
  have hnew : ∀ e ∈ ((σ.waits (.tWait σ.current)).map fun t =>
      Event.woken (σ.inst t) (.tWait σ.current) .threadExit).reverse ++ [.exited σ.self marked],
      isMark e = false ∧ KillFinal e σ.history := by
    intro e he
    simp only [List.mem_append,List.mem_reverse,List.mem_map,List.mem_singleton] at he
    rcases he with ⟨u,_,rfl⟩ | rfl
    · exact ⟨rfl,fun k _ ha => absurd ha (by simp [actor]),fun k hk => absurd hk (by simp)⟩
    · refine ⟨rfl,fun k hk ha => ?_,fun k hk => ?_⟩
      · obtain rfl : σ.self = k := Option.some.inj ha
        cases marked with
        | true => rfl
        | false => exact absurd hk (h.self_notMem hi hm)
      · obtain ⟨rfl,rfl⟩ : σ.self = k ∧ marked = true := by simpa using hk
        exact h.marked _ hm
  have hh : (σ.exit marked next rest).history = ((σ.waits (.tWait σ.current)).map fun t =>
      Event.woken (σ.inst t) (.tWait σ.current) .threadExit).reverse ++ [.exited σ.self marked] ++
      σ.history := by simp [Sched.exit]
  have hkills : kills (σ.exit marked next rest).history = kills σ.history := by
    rw [hh]
    exact kills_append fun e he => (hnew e he).1
  have hg : ∀ t, ((σ.exit marked next rest).slots t).generation = (σ.slots t).generation := by
    intro t
    simp only [Sched.exit]
    split
    · rfl
    · split <;> rfl
  refine ⟨fun t ht => ?_,fun k hk => ?_,?_⟩
  · rw [hkills]
    have hi : (σ.exit marked next rest).inst t = σ.inst t := by simp [Sched.inst,hg]
    rw [hi]
    refine h.marked t ?_
    by_cases htn : t = next
    · simpa [Sched.exit,htn] using ht
    · by_cases htc : t = σ.current
      · simp [Sched.exit,htc,hnc.symm] at ht
      · simpa [Sched.exit,htn,htc] using ht
  · rw [hkills] at hk
    rw [hg]
    refine (h.dead k hk).imp_right (And.imp_right fun hd => ?_)
    by_cases htc : k.tid = σ.current
    · exact .inr (by simp [Sched.exit,htc,hnc.symm])
    · by_cases htn : k.tid = next
      · rw [htn] at hd ⊢
        have hd' := hd.resolve_right (by simp [hnr])
        exact .inl (by simpa [Sched.exit] using hd')
      · simpa [Sched.exit,htn,htc] using hd
  · rw [hh]
    exact killFinal_append h.final (fun e he => (hnew e he).1) fun e he => (hnew e he).2

theorem KillInv.create {σ : Sched} (h : KillInv σ) (hi : Inv σ) {id : Tid} {rest : List Tid}
    (ha : σ.available = id::rest) : KillInv (σ.create id rest) := by
  have hkills : kills (σ.create id rest).history = kills σ.history := kills_cons rfl
  have hfree : (σ.slots id).tState = .notAssigned := hi.free id (by simp [ha])
  refine ⟨fun t ht => ?_,fun k hk => ?_,always_cons.mpr ⟨⟨?_,?_⟩,h.final⟩⟩
  · rw [hkills]
    by_cases hti : t = id
    · subst hti
      have : (σ.slots t).killOnNextRun = true := by simpa [Sched.create] using ht
      exact absurd ((hi.unmarked t hfree).symm.trans this) (by simp)
    · simpa [Sched.inst,Sched.create,hti] using h.marked t (by simpa [Sched.create,hti] using ht)
  · rw [hkills] at hk
    by_cases hti : k.tid = id
    · refine .inl ?_
      have hle : k.generation ≤ (σ.slots k.tid).generation :=
        (h.dead k hk).elim le_of_lt fun hd => le_of_eq hd.1
      simp only [Sched.create,hti,if_true]
      rw [hti] at hle
      exact Nat.lt_succ_of_le hle
    · simpa [Sched.create,hti] using h.dead k hk
  · exact fun k _ ha => absurd ha (by simp [actor])
  · exact fun k hk => absurd hk (by simp)

theorem KillInv.kill {σ : Sched} (h : KillInv σ) (hi : Inv σ) {tid : Tid}
    (hk : σ.me.killOnNextRun = false) :
    KillInv ((σ.modify tid fun t => { t with killOnNextRun := true }).record
      (.killed σ.self (σ.inst tid))) where
  marked t ht := by
    have hinst : ((σ.modify tid fun t => { t with killOnNextRun := true }).record
        (.killed σ.self (σ.inst tid))).inst t = σ.inst t := by
      by_cases htt : t = tid <;> simp [Sched.inst,Sched.modify,record,htt]
    rw [hinst]
    by_cases htt : t = tid
    · exact htt ▸ List.mem_cons_self
    · exact List.mem_cons_of_mem _ (h.marked t (by simpa [Sched.modify,record,htt] using ht))
  dead k hm := by
    rcases List.mem_cons.mp (show k ∈ σ.inst tid::kills σ.history from hm) with rfl | hm
    · exact .inr ⟨by simp [Sched.inst,Sched.modify,record],.inl (by simp [Sched.inst,Sched.modify,record])⟩
    · by_cases hkt : k.tid = tid
      · have hd := h.dead k hm
        simp only [hkt] at hd
        simpa [Sched.modify,record,hkt] using hd.imp_right And.left
      · simpa [Sched.modify,record,hkt] using h.dead k hm
  final := by
    refine always_cons.mpr ⟨⟨fun k hm ha => ?_,fun k hx => absurd hx (by simp)⟩,h.final⟩
    obtain rfl : σ.self = k := Option.some.inj ha
    exact absurd hm (h.self_notMem hi hk)

theorem Move.killInv {D : Set Defect} {σ σ' : Sched} (hs : Sound D σ) (h : KillInv σ)
    (hm : Move D σ σ') : KillInv σ' := by
  have hi := hs.toInv
  cases hm with
  | exit marked next rest hmk hn => exact h.exit hi hmk hn
  | create id rest _ ha _ _ => exact h.create hi ha
  | kill tid _ _ _ _ hk _ => exact h.kill hi hk
  | call c enabled hk _ =>
    refine h.frame hi (n := [_]) rfl (by simp [isMark,actor,hk]) (fun t => ?_) (fun t => ?_)
      (fun t ht => ?_) <;>
    · by_cases htc : t = σ.current <;> simp_all [Sched.modify,record]
  | own hk =>
    exact h.frame hi (n := [_]) rfl (by simp [isMark,actor,hk]) (fun _ => rfl) (fun _ => rfl)
      (fun _ ht => ht)
  | passed lock hk _ =>
    exact h.frame hi (n := [_]) rfl (by simp [isMark,actor,hk]) (fun _ => rfl) (fun _ => rfl)
      (fun _ ht => ht)
  | unlock lock c hk _ _ _ _ _ =>
    exact h.frame hi (n := [_]) rfl (by simp [isMark,actor,hk]) (fun _ => rfl) (fun _ => rfl)
      (fun _ ht => ht)
  | refuse cv lock l v enabled hk _ _ _ =>
    exact h.frame hi (n := [_,_]) rfl (by simp [isMark,actor,hk]) (fun _ => rfl) (fun _ => rfl)
      (fun _ ht => ht)
  | ret c v enabled hk _ _ =>
    refine h.frame hi (n := [_]) rfl (by simp [isMark,actor,hk]) (fun t => ?_) (fun t => ?_)
      (fun t ht => ?_) <;>
    · by_cases htc : t = σ.current <;> simp_all [Sched.ret,Sched.modify,record]
  | free lock v enabled hk _ _ =>
    refine h.frame hi (n := [_]) rfl ?_ (fun t => ?_) (fun t => ?_) (fun t ht => ?_)
    · simp [isMark,actor,hk,Sched.self,Sched.inst,Sched.setLock]
    all_goals
      by_cases htc : t = σ.current <;> simp_all [Sched.ret,Sched.modify,record,Sched.setLock]
  | acquire lock l c v enabled _ _ hk _ _ _ =>
    refine h.frame hi (n := [_,_]) rfl ?_ (fun t => ?_) (fun t => ?_) (fun t ht => ?_)
    · simp [isMark,actor,hk,Sched.self,Sched.inst,Sched.setLock,record]
    all_goals
      by_cases htc : t = σ.current <;> simp_all [Sched.ret,Sched.modify,record,Sched.setLock]
  | wake waker queue l rest hq _ =>
    refine h.frame hi rfl (fun e he => ?_) (fun _ => rfl) (fun _ => rfl) (fun _ ht => ht)
    simp only [List.mem_reverse,List.mem_map] at he
    obtain ⟨u,_,rfl⟩ := he
    simp [isMark,actor]
  | request | resume =>
    refine h.frame hi (n := []) rfl (by simp) (fun t => ?_) (fun t => ?_) (fun t ht => ?_) <;>
    · by_cases htc : t = σ.current <;> simp_all [Sched.modify]
  | lose | forget =>
    exact h.frame hi (n := []) rfl (by simp) (fun _ => rfl) (fun _ => rfl) (fun _ ht => ht)
  | discard =>
    exact h.frame hi (n := [_]) rfl (by simp [isMark,actor]) (fun _ => rfl) (fun _ => rfl)
      (fun _ ht => ht)
  | switch x hx hk _ _ =>
    have hxr := hi.ready x hx
    have hcr := hi.current_running
    obtain ⟨n,hh,hnew⟩ : ∃ n, (σ.switch x).history = n ++ σ.history ∧ ∀ e ∈ n,
        isMark e = false ∧ (∀ k m, e ≠ .exited k m) ∧
        (actor e = none ∨ actor e = some σ.self ∧ σ.me.killOnNextRun = false) := by
      cases hq : σ.me.waitQueue with
      | none => exact ⟨[],by simp [Sched.switch,hq],by simp⟩
      | some q => exact ⟨[.slept σ.self q],by simp [Sched.switch,hq],by simp [isMark,actor,hk]⟩
    refine h.frame hi hh hnew (fun t => ?_) (fun t => ?_) (fun t ht => ?_)
    · simp only [Sched.switch]
      split
      · rfl
      · split <;> rfl
    · simp only [Sched.switch]
      split
      · rfl
      · split <;> rfl
    · have htx : t ≠ x := by rintro rfl; exact absurd (ht.symm.trans hxr) (by simp)
      have htc : t ≠ σ.current := by rintro rfl; exact absurd (ht.symm.trans hcr) (by simp)
      simpa [Sched.switch,htx,htc] using ht

theorem killMarks_aside {e : Event} (hk : isMark e = false)
    (hr : ∀ i tid enabled, e ≠ .ret i (.threadKill tid) tid enabled) (older : List Event) :
    KillMarks e older where
  owner i target he := by
    subst he
    cases hk
  returned i tid enabled he := absurd he (hr i tid enabled)

/-- The mark is set on the owner, and before the return. -/
theorem Move.killMarks {D : Set Defect} {σ σ' : Sched} (hs : Sound D σ) (h : Always KillMarks σ.history)
    (hm : Move D σ σ') : Always KillMarks σ'.history := by
  have aside : ∀ {n : List Event}, (∀ e ∈ n, isMark e = false ∧
      ∀ i tid enabled, e ≠ .ret i (.threadKill tid) tid enabled) → Always KillMarks (n ++ σ.history) :=
    fun hn => h.append fun e he => killMarks_aside (hn e he).1 (hn e he).2
  have wakes : ∀ (l : List Tid) (queue : WaitQueue) (waker : Waker),
      ∀ e ∈ (l.map fun t => Event.woken (σ.inst t) queue waker).reverse, isMark e = false ∧
        ∀ i tid enabled, e ≠ .ret i (.threadKill tid) tid enabled := by
    intro l queue waker e he
    simp only [List.mem_reverse,List.mem_map] at he
    obtain ⟨u,_,rfl⟩ := he
    simp [isMark]
  cases hm with
  | kill tid _ _ _ _ _ _ =>
    refine always_cons.mpr ⟨⟨fun i target he => ?_,by simp⟩,h⟩
    obtain ⟨-,rfl⟩ := Event.killed.inj he
    exact (hs.counted tid).symm
  | ret c v enabled _ hc hp =>
    refine always_cons.mpr ⟨⟨by simp,fun i tid enabled' he => ?_⟩,h⟩
    obtain ⟨rfl,rfl,rfl,-⟩ := Event.ret.inj he
    exact (hp rfl).marked _ hc
  | acquire lock l c v enabled _ _ _ _ hac _ =>
    refine aside (n := [.ret σ.self c v enabled,.acquired σ.self lock]) ?_
    have hc : ∀ tid, c ≠ .threadKill tid := by
      rintro tid rfl
      exact hac
    simp [isMark,hc]
  | call | own | passed | unlock | free | discard | create =>
    exact aside (n := [_]) (by simp [isMark])
  | refuse => exact aside (n := [_,_]) (by simp [isMark])
  | request | resume | lose | forget => exact h
  | wake waker queue l rest _ _ => exact aside (wakes l queue waker)
  | exit marked next rest _ _ =>
    exact (always_cons.mpr ⟨killMarks_aside rfl (by simp) _,h⟩).append fun e he =>
      killMarks_aside (wakes _ _ _ e he).1 (wakes _ _ _ e he).2
  | switch x _ _ _ _ =>
    cases hq : σ.me.waitQueue with
    | none =>
      have hh : (σ.switch x).history = σ.history := by simp [Sched.switch,hq]
      exact hh ▸ h
    | some q =>
      have hh : (σ.switch x).history = [.slept σ.self q] ++ σ.history := by simp [Sched.switch,hq]
      exact hh ▸ aside (by simp [isMark])

theorem threadInit_killInv : KillInv (view threadInit) where
  marked t ht := by simp [view,slot,threadInit] at ht
  dead k hk := by simp [view,threadInit,kills] at hk
  final := always_nil

/-- In every run `thread_kill` has marked the owner of its argument when it returns the argument,
the marked instance does nothing but exit, and only marked instances exit because of a mark. -/
theorem kill_final {s : State} (h : Reachable anyStep s) :
    Always KillMarks s.history ∧ Always KillFinal s.history := by
  obtain ⟨σ,hs,hsound,⟨hm,hk⟩,_⟩ := shown_of_reachable (D := Set.univ)
    (P := fun σ => Always KillMarks σ.history ∧ KillInv σ) (fun _ _ _ _ _ d => .inl (Set.mem_univ d))
    ⟨always_nil,threadInit_killInv⟩
    (fun _ _ hs h hm => ⟨Move.killMarks hs h.1 hm,Move.killInv hs h.2 hm⟩) h
  cases hs with
  | view hv =>
    subst hv
    exact ⟨hm,hk.final⟩
  | halted marked _ hh hmk =>
    rw [hh]
    refine ⟨always_cons.mpr ⟨killMarks_aside rfl (by simp) _,hm⟩,
      always_cons.mpr ⟨⟨fun k hmem ha => ?_,fun k he => ?_⟩,hk.final⟩⟩
    · obtain rfl : σ.self = k := Option.some.inj ha
      cases marked with
      | true => rfl
      | false => exact absurd hmem (hk.self_notMem hsound.toInv hmk)
    · obtain ⟨rfl,rfl⟩ : σ.self = k ∧ marked = true := by simpa using he
      exact hk.marked _ hmk

/-- Thread 1 is killed while it is ready and exits when it is scheduled; its identifier is
then used again. -/
def killAndReuse : List Action :=
  [.call (.threadCreate true),.call (.threadKill 1),.run,.call (.threadYield 1),.run,.run,.run,.run,
    .call (.threadCreate true),.call (.threadYield 1),.run,.run,.run,.compute]

def afterKillAndReuse : State := final step killAndReuse threadInit (by decide +kernel)

theorem afterKillAndReuse_final : .exited ⟨1,1⟩ true ∈ afterKillAndReuse.history ∧
    .ret ⟨0,0⟩ (.threadKill 1) 1 true ∈ afterKillAndReuse.history ∧
    .own ⟨1,2⟩ ∈ afterKillAndReuse.history ∧
    Always KillMarks afterKillAndReuse.history ∧ Always KillFinal afterKillAndReuse.history :=
  ⟨by decide +kernel,by decide +kernel,by decide +kernel,
    kill_final (reachable_final .init fun _ _ _ => trivial)⟩

/-! ### The owner at the return -/

/-- The instances that owned the argument of a `thread_kill` when it was returned. -/
def ownersAtReturn : List Event → List Inst
  | [] => []
  | .ret _ (.threadKill tid) v _::h =>
    if v = tid then ownerAt tid h::ownersAtReturn h else ownersAtReturn h
  | _::h => ownersAtReturn h

/-- An instance that owned the argument of a `thread_kill` at its return only exits. -/
def ReturnFinal (e : Event) (older : List Event) : Prop :=
  ∀ k ∈ ownersAtReturn older, actor e = some k → e = .exited k true

/-- The timer interrupts `thread_kill` after the mark. Thread 1 exits, thread 2 creates a thread with
its identifier, and that thread runs after the return. -/
def killInterrupted : List Action :=
  [.call (.threadCreate true),.call (.threadCreate true),.call (.threadKill 1),.timer,.run,.run,.run,
    .run,.run,.run,.call (.threadCreate true),.call (.threadYield (-1)),.run,.run,
    .call (.threadYield (-1)),.run,.run,.run,.compute]

def afterKillInterrupted : State := final step killInterrupted threadInit (by decide +kernel)

theorem killInterrupted_not_final : Reachable anyStep afterKillInterrupted ∧
    ¬ Always ReturnFinal afterKillInterrupted.history := by
  refine ⟨reachable_final .init fun _ _ _ => trivial,fun h => ?_⟩
  have hh : afterKillInterrupted.history = .own ⟨1,2⟩::afterKillInterrupted.history.tail := by decide +kernel
  have hm : ⟨1,2⟩ ∈ ownersAtReturn afterKillInterrupted.history.tail := by decide +kernel
  have hx := h _ _ ⟨[],hh.symm⟩ ⟨1,2⟩ hm rfl
  cases hx

end ThreadKill
end OsLabs

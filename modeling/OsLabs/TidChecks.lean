import OsLabs.FailedCalls
import OsLabs.TcbBounds

/-!
# Thread identifiers as arguments

`thread_yield`, `thread_kill` and `thread_wait` take any `int` and answer `THREAD_INVALID` to the ones
that name no thread. Each of them has tests of its own before it reads `TCBs[tid]`: the ones of
`thread_kill` let -7 to -1 through, the ones of `thread_wait` everything from `THREAD_MAX_THREADS` on,
and `thread_yield` looks for -7 to -3 in the ready queue.
-/

namespace OsLabs
namespace TidChecks

open ThreadModel Scheduler SchedulerView SchedulerRefinement SchedulerRun SavedMasks FailedCalls
  TcbBounds Transition

/-- The calls that name a thread; `THREAD_ANY` and `THREAD_SELF` name none. -/
def NamesThread : Call → Prop
  | .threadYield tid => tid ≠ threadAny ∧ tid ≠ threadSelf
  | .threadKill _ => True
  | .threadWait _ => True
  | _ => False

/-- The identifier names no thread that the call may name. -/
def Invalid (s : State) : Call → Prop
  | .threadYield tid => ¬ InTable tid ∨ (s.TCBs tid).tState = .notAssigned
  | .threadKill tid => ¬ InTable tid ∨ tid = s.currentThreadId ∨ (s.TCBs tid).tState = .notAssigned
  | .threadWait tid => ¬ InTable tid ∨ tid = s.currentThreadId ∨ (s.TCBs tid).tState = .notAssigned
  | _ => False

/-- The identifiers that the tests get right. -/
def Tested : Call → Prop
  | .threadYield tid => ¬ (-7 ≤ tid ∧ tid ≤ -3)
  | .threadKill tid => ¬ (-7 ≤ tid ∧ tid ≤ -1)
  | .threadWait tid => tid < threadMaxThreads
  | _ => True

/-- In some run the call that the running thread makes now returns `v`, and that is the newest event:
the thread has made no other call since. -/
def Returns (s : State) (c : Call) (v : ℤ) : Prop :=
  ∃ as t n m m', exec step (.call c::as) s = some t ∧
    t.history = .ret s.self c v m'::(n ++ .call s.self c m::s.history) ∧
      ∀ e ∈ n, isCall s.self e = false

/-- The call does not leave the array, and returns `THREAD_INVALID` exactly when it should. -/
structure Validates (s : State) (c : Call) : Prop where
  inside : ∀ t, step s (.call c) = some t → t.status ≠ .undefined
  exact : Returns s c threadInvalid ↔ Invalid s c

/-- The state in which the code of a call starts. -/
def called (s : State) (c : Call) (k : List Frame) : State :=
  { s.record (.call s.self c s.interrupts) with frames := .call c::.own::k }

/-! ### Status and history -/

section Onward

variable {s : State}

/-- The process runs, has ended or sleeps on a destroyed queue, and all events are kept. -/
structure Onward (s t : State) : Prop where
  status : t.status = s.status ∨ t.status = .exited ∨ t.status = .dangling
  history : s.history <:+ t.history

theorem Onward.not_undefined {t : State} (h : Onward s t) (hr : s.status = .running) :
    t.status ≠ .undefined := by
  intro hu
  rcases h.status with hs | hs | hs
  · exact absurd (hs.symm.trans hu) (by simp [hr])
  · exact absurd (hs.symm.trans hu) (by simp)
  · exact absurd (hs.symm.trans hu) (by simp)

theorem returnTo_onward : ∀ (k : List Frame) (v : ℤ) (s : State), Onward s (returnTo v k s)
  | [], _, _ => ⟨.inl rfl,List.suffix_rfl⟩
  | f::k, v, s => by
    cases f with
    | sleep e =>
      have h := returnTo_onward k v { s with interrupts := e }
      exact ⟨h.status,h.history⟩
    | wait tid e =>
      have h := returnTo_onward k tid { s with interrupts := e }
      exact ⟨h.status,h.history⟩
    | cvReacquired cv l e =>
      have h := returnTo_onward k v { s with interrupts := e }
      exact ⟨h.status,h.history⟩
    | call c => exact ⟨.inl rfl,List.suffix_cons _ _⟩
    | _ => exact ⟨.inl rfl,List.suffix_rfl⟩

theorem return_onward (v : ℤ) (s : State) : Onward s (return_ v s) := returnTo_onward s.frames v s

theorem threadExit_onward (hw : ∀ queue, ∀ t ∈ s.waitQueues queue, t ≠ -1) (marked : Bool) :
    Onward s (threadExit marked s) := by
  have hh : s.history <:+ (exited marked s).history :=
    (List.suffix_cons _ _).trans (List.suffix_append _ _)
  rw [threadExit_eq (s := s) (hw _)]
  cases hq : (exited marked s).readyQueue with
  | nil =>
    simp only [removeNextReadyThread,hq,if_true]
    exact ⟨.inr (.inl rfl),hh⟩
  | cons x rest =>
    simp only [removeNextReadyThread,hq]
    split
    · exact ⟨.inr (.inl rfl),hh⟩
    · exact ⟨.inl rfl,hh⟩

theorem yieldingBlock_onward (x o : Tid) (s : State) : Onward s (yieldingBlock x o s) := by
  simp only [yieldingBlock]
  split
  · rename_i queue _
    refine ⟨?_,List.suffix_cons _ _⟩
    by_cases hf : s.freed queue = true
    · exact .inr (.inr (if_pos hf))
    · exact .inl (if_neg hf)
  · exact ⟨.inl rfl,List.suffix_rfl⟩

theorem afterGetcontext_onward (hw : ∀ queue, ∀ t ∈ s.waitQueues queue, t ≠ -1) (x o tk : Tid)
    (enabled : Bool) : Onward s (afterGetcontext x o tk enabled s) := by
  simp only [afterGetcontext]
  split
  · have h := threadExit_onward (s := freeTCBStacks s) hw true
    exact ⟨h.status,h.history⟩
  split
  · have h := yieldingBlock_onward x o (freeTCBStacks s)
    exact ⟨h.status,h.history⟩
  · have h := return_onward tk { (freeTCBStacks s).modify (freeTCBStacks s).currentThreadId
      (fun t => { t with setcontextCalled := false }) with interrupts := enabled }
    exact ⟨h.status,h.history⟩

theorem yieldTo_onward (hw : ∀ queue, ∀ t ∈ s.waitQueues queue, t ≠ -1) (x : Tid) (enabled : Bool) :
    Onward s (yieldTo x enabled s) := by
  have h := afterGetcontext_onward (s := s.modify s.currentThreadId fun t => { t with
    mycontext := ⟨.yielded x s.currentThreadId x enabled::s.frames,s.interrupts⟩ }) hw x
    s.currentThreadId x enabled
  exact ⟨h.status,h.history⟩

theorem threadYield_onward (hw : ∀ queue, ∀ t ∈ s.waitQueues queue, t ≠ -1) (w : Tid) :
    Onward s (threadYield w s) := by
  rcases threadYield_cases w s with ⟨v,hv⟩ | ⟨x,-,-,hv⟩
  · rw [hv]
    exact return_onward v s
  · rw [hv]
    have h := yieldTo_onward (s := { s with interrupts := false, readyQueue := s.readyQueue.erase x })
      hw x s.interrupts
    exact ⟨h.status,h.history⟩

theorem threadSleep_onward (hw : ∀ queue, ∀ t ∈ s.waitQueues queue, t ≠ -1) (q : Option WaitQueue) :
    Onward s (threadSleep q s) := by
  cases q with
  | none => exact return_onward _ s
  | some queue =>
    simp only [threadSleep]
    split
    · exact return_onward _ s
    · rename_i x rest _
      have h := threadYield_onward (s := { s.modify s.currentThreadId (fun t => { t with waitQueue := some queue })
        with interrupts := false, frames := .sleep s.interrupts::s.frames }) hw x
      exact ⟨h.status,h.history⟩

end Onward

/-! ### The tests -/

section Tests

variable {s : State} {h : List Event}

/-- What the code of a call comes to in its first step: it refuses the identifier, leaves the array,
takes the identifier for one of a thread that is not ready, or goes on with a valid one. -/
inductive Answers (h : List Event) (s : State) (c : Call) (t : State) : Prop
  | refuses : Tested c → Invalid s c → t = return_ threadInvalid s → Answers h s c t
  | leaves : ¬ Tested c → t = { s with status := .undefined } → Answers h s c t
  | misses : ¬ Tested c → Invalid s c → t = return_ threadNone s → Answers h s c t
  | returns (v : ℤ) : ¬ Invalid s c → v ≠ threadInvalid → t = return_ v s → Answers h s c t
  | proceeds : ¬ Invalid s c → Onward s t → NoFailure h t → Answers h s c t

theorem threadKill_answers (hi : InTable s.currentThreadId)
    (tid : Tid) : Answers h s (.threadKill tid) (threadKill tid s) := by
  have tested : ¬ (-7 ≤ tid ∧ tid < 0) → Tested (.threadKill tid) := fun hno ht =>
    hno ⟨ht.1,Int.lt_of_le_sub_one ht.2⟩
  by_cases h₁ : tid ≥ 1024 ∨ tid < -7
  · have hout : ¬ InTable tid := fun ht => h₁.elim (not_le.mpr ht.2) fun hlt =>
      absurd (lt_of_le_of_lt ht.1 hlt) (by decide)
    refine .refuses (tested fun ht => ?_) (.inl hout) (by simp only [threadKill,if_pos h₁])
    exact h₁.elim (fun hge => absurd (lt_of_le_of_lt hge ht.2) (by decide)) (not_lt.mpr ht.1)
  by_cases h₂ : tid = s.currentThreadId
  · refine .refuses (tested fun ht => ?_) (.inr (.inl h₂)) (by simp only [threadKill,if_neg h₁,if_pos h₂])
    exact not_lt.mpr hi.1 (h₂ ▸ ht.2)
  by_cases h₃ : tid < 0
  · refine .leaves (fun ht => ht ⟨not_lt.mp fun hlt => h₁ (.inr hlt),Int.le_sub_one_of_lt h₃⟩) ?_
    simp only [threadKill,if_neg h₁,if_neg h₂,if_pos h₃]
  have ht : InTable tid := ⟨not_lt.mp h₃,lt_of_not_ge fun hge => h₁ (.inl hge)⟩
  by_cases h₄ : (s.TCBs tid).tState = .notAssigned
  · refine .refuses (tested fun ht => h₃ ht.2) (.inr (.inr h₄)) ?_
    simp only [threadKill,if_neg h₁,if_neg h₂,if_neg h₃,if_pos h₄]
  · refine .proceeds (by simp [Invalid,ht,h₂,h₄]) ?_ ?_
    · simp only [threadKill,if_neg h₁,if_neg h₂,if_neg h₃,if_neg h₄]
      exact ⟨.inl rfl,List.suffix_cons _ _⟩
    · simp only [threadKill,if_neg h₁,if_neg h₂,if_neg h₃,if_neg h₄]
      exact noFailure_of_internal (n := [_]) (r := s.history) rfl (by simp) (by simp [internal])

theorem threadWait_answers (hc : Controlled s) (hn : NoFailure h s) (hi : InTable s.currentThreadId)
    (tid : Tid) : Answers h s (.threadWait tid) (threadWait tid s) := by
  by_cases h₁ : tid < 0 ∨ tid = s.currentThreadId
  · refine .refuses ?_ ?_ (by simp only [threadWait,if_pos h₁])
    · exact h₁.elim (fun hlt => lt_trans hlt (by decide)) fun he => he ▸ hi.2
    · exact h₁.imp (fun hlt ht => absurd ht.1 (not_le.mpr hlt)) .inl
  by_cases h₂ : tid ≥ threadMaxThreads
  · refine .leaves (not_lt.mpr h₂) ?_
    simp only [threadWait,if_neg h₁,if_pos h₂]
  have ht : InTable tid := ⟨not_lt.mp fun hlt => h₁ (.inl hlt),lt_of_not_ge h₂⟩
  by_cases h₃ : (s.TCBs tid).tState = .notAssigned
  · refine .refuses ht.2 (.inr (.inr h₃)) ?_
    simp only [threadWait,if_neg h₁,if_neg h₂,if_pos h₃]
  · have hne : tid ≠ s.currentThreadId := fun he => h₁ (.inr he)
    refine .proceeds (by simp [Invalid,ht,hne,h₃]) ?_ ?_
    · simp only [threadWait,if_neg h₁,if_neg h₂,if_neg h₃]
      have ho := threadSleep_onward (s := { s with
        interrupts := false, frames := .wait tid s.interrupts::s.frames }) hc.waits_ne (some (.tWait tid))
      exact ⟨ho.status,ho.history⟩
    · simp only [threadWait,if_neg h₁,if_neg h₂,if_neg h₃]
      refine noFailure_threadSleep (hc.goto (m := false) (k := .wait tid s.interrupts::s.frames)
        (hc.live.congr rfl ⟨ht.1,hc.live.proper⟩)) hn ?_ _
      rintro ⟨c,hc,-⟩
      simp [receiver] at hc

theorem below_constants {t : ℤ} (h : t < 0) (h₇ : -7 ≤ t) (h₁ : t ≠ -1) (h₂ : t ≠ -2) :
    -7 ≤ t ∧ t ≤ -3 := by
  omega

/-- The running thread is not in the ready queue and its slot is in use. -/
theorem threadYield_answers (hc : Controlled s) (hn : NoFailure h s) (hi : InTable s.currentThreadId)
    (hassigned : s.tcb.tState ≠ .notAssigned) {tid : Tid}
    (hnames : NamesThread (.threadYield tid)) :
    Answers h s (.threadYield tid) (threadYield tid s) := by
  obtain ⟨hany,hself⟩ := hnames
  have hself' : threadSelf ≠ tid := hself.symm
  by_cases h₁ : tid ≥ threadMaxThreads ∨ tid < -7
  · have hout : ¬ InTable tid := fun ht => h₁.elim (not_le.mpr ht.2) fun hlt =>
      absurd (lt_of_le_of_lt ht.1 hlt) (by decide)
    refine .refuses (fun ht => ?_) (.inl hout) (by simp only [threadYield,if_pos h₁])
    exact h₁.elim (fun hge => absurd (le_trans hge ht.2) (by decide)) (not_lt.mpr ht.1)
  by_cases h₂ : tid = s.currentThreadId
  · subst h₂
    refine .returns s.currentThreadId ?_ ?_ (by simp only [threadYield,if_neg h₁,if_neg hself',if_true])
    · simp only [Invalid,hi,not_true,false_or]
      exact hassigned
    · exact (lt_of_lt_of_le (by decide : threadInvalid < 0) hi.1).ne'
  by_cases h₃ : tid ≥ 0 ∧ (s.TCBs tid).tState = .notAssigned
  · refine .refuses (fun ht => absurd (le_trans h₃.1 ht.2) (by decide)) (.inr h₃.2) ?_
    simp only [threadYield,if_neg h₁,if_neg hself',if_neg h₂,if_pos h₃]
  by_cases hready : tid ∈ s.readyQueue
  · have ht : 0 ≤ tid := hc.ready tid hready
    have hne : tid ≠ -1 := (lt_of_lt_of_le (by decide) ht).ne'
    have htable : InTable tid := ⟨ht,lt_of_not_ge fun hge => h₁ (.inl hge)⟩
    have hinvalid : ¬ Invalid s (.threadYield tid) := by
      simp only [Invalid,htable,not_true,false_or]
      exact fun h₄ => h₃ ⟨ht,h₄⟩
    refine .proceeds hinvalid (threadYield_onward hc.waits_ne tid) ?_
    simp only [threadYield,if_neg h₁,if_neg hself',if_neg h₂,if_neg h₃,if_neg hany,removeFromReadyQueue,
      if_pos hready,if_neg hne]
    exact noFailure_yieldTo (s := { s with interrupts := false, readyQueue := s.readyQueue.erase tid }) hn
      { hc with ready := fun t ht => hc.ready t (List.mem_of_mem_erase ht) } ht
  have hnone : threadYield tid s = return_ threadNone s := by
    simp only [threadYield,if_neg h₁,if_neg hself',if_neg h₂,if_neg h₃,if_neg hany,removeFromReadyQueue,
      if_neg hready,if_true]
  by_cases ht : 0 ≤ tid
  · have htable : InTable tid := ⟨ht,lt_of_not_ge fun hge => h₁ (.inl hge)⟩
    refine .returns threadNone ?_ (by decide) hnone
    simp only [Invalid,htable,not_true,false_or]
    exact fun h₄ => h₃ ⟨ht,h₄⟩
  · refine .misses (fun hno => hno ?_) (.inl fun htable => ht htable.1) hnone
    exact below_constants (not_le.mp ht) (not_lt.mp fun hlt => h₁ (.inr hlt)) hany hself

/-- The calls that name a thread, in the state in which their code starts. -/
theorem doCall_answers (hc : Controlled s) (hn : NoFailure h s) (hi : InTable s.currentThreadId)
    (hassigned : s.tcb.tState ≠ .notAssigned) {c : Call}
    (hnames : NamesThread c) : Answers h s c (doCall c s) := by
  cases c with
  | threadYield tid => exact threadYield_answers hc hn hi hassigned hnames
  | threadKill tid => exact threadKill_answers hi tid
  | threadWait tid => exact threadWait_answers hc hn hi tid
  | _ => cases hnames

theorem Answers.newest {c : Call} {t : State} (ha : Answers h s c t) (hn : NoFailure h s) :
    NoFailure h t ∨ ∃ v, t = return_ v s := by
  cases ha with
  | refuses _ _ ht => exact .inr ⟨_,ht⟩
  | leaves _ ht => exact .inl (ht ▸ hn)
  | misses _ _ ht => exact .inr ⟨_,ht⟩
  | returns v _ _ ht => exact .inr ⟨v,ht⟩
  | proceeds _ _ hn' => exact .inl hn'

end Tests

/-! ### Runs -/

theorem moves_history {D : Set Defect} {σ σ' : Sched} (hm : Moves D σ σ') (hs : Sound D σ) :
    σ.history <:+ σ'.history := by
  induction hm with
  | refl => exact List.suffix_rfl
  | tail hms hm ih =>
    obtain ⟨n,he⟩ := hm.effect (Moves.sound hms hs).toInv
    exact ih.trans ⟨n,he.history.symm⟩

/-- A step only adds events. -/
theorem step_history {s s' : State} {a : Action} (h : Reachable anyStep s) (hst : step s a = some s') :
    s.history <:+ s'.history := by
  obtain ⟨hs,hc⟩ := sound_control_of_reachable h (running_of_step hst)
  cases step_outcome hs hc (fun d => .inl (Set.mem_univ d)) hst with
  | goes hm _ => exact moves_history hm hs
  | halts σ' marked hm _ hh _ =>
    rw [hh]
    exact (moves_history hm hs).trans (List.suffix_cons _ _)

theorem exec_history {as : List Action} {s t : State} (h : Reachable anyStep s)
    (he : exec step as s = some t) : s.history <:+ t.history := by
  induction as generalizing s with
  | nil =>
    obtain rfl := Option.some.inj he
    exact List.suffix_rfl
  | cons a as ih =>
    obtain ⟨u,hst,hrest⟩ := Option.bind_eq_some_iff.mp he
    exact (step_history h hst).trans (ih (.step a h trivial hst) hrest)

/-- What a call does first. -/
theorem step_called {s : State} {c : Call} {k : List Frame} (hr : s.status = .running)
    (hf : s.frames = .own::k) : step s (.call c) = some (doCall c (called s c k)) := by
  simp [step,hr,hf,called]

theorem called_answers {s : State} {c : Call} {k : List Frame} (h : Reachable anyStep s)
    (hr : s.status = .running) (hnames : NamesThread c) :
    Answers s.history (called s c k) c (doCall c (called s c k)) := by
  obtain ⟨hs,-⟩ := sound_control_of_reachable h hr
  have hctl := (proceeds_of_reachable h).controlled hr
  refine doCall_answers (hctl.call c) (noFailure_called rfl) hs.current_range ?_ hnames
  have hrun : (s.TCBs s.currentThreadId).tState = .running := hs.current_running
  change (s.TCBs s.currentThreadId).tState ≠ .notAssigned
  simp [hrun]

theorem Answers.history {h : List Event} {s t : State} {c : Call} (ha : Answers h s c t) :
    s.history <:+ t.history := by
  cases ha with
  | refuses _ _ ht => exact ht ▸ (return_onward _ s).history
  | leaves _ ht => rw [ht]
  | misses _ _ ht => exact ht ▸ (return_onward _ s).history
  | returns v _ _ ht => exact ht ▸ (return_onward _ s).history
  | proceeds _ ho _ => exact ho.history

theorem NamesThread.fallible {c : Call} (h : NamesThread c) : Fallible c := by
  cases c <;> trivial

/-- The events of a step that makes a call and returns an error code. -/
theorem failing_call_history {u t : State} {a : Action} {c : Call} (h : Reachable anyStep u)
    (hst : step u a = some t) (hnames : NamesThread c) (hret : ReturnsIn u t c threadInvalid) :
    ∃ v m m', t.history = .ret u.self c v m'::.call u.self c m::u.history := by
  obtain ⟨rfl,-⟩ := returns_at_once h hst hnames.fallible hret (by decide)
  have hr := running_of_step hst
  obtain ⟨k,hf⟩ : ∃ k, u.frames = .own::k := by
    simp only [step,hr,ne_eq,not_true,if_false] at hst
    split at hst
    · exact ⟨_,‹_›⟩
    · cases hst
  obtain rfl : doCall c (called u c k) = t := Option.some.inj ((step_called hr hf).symm.trans hst)
  rcases (called_answers h hr hnames).newest (noFailure_called rfl) with hno | ⟨v,hv⟩
  · exact absurd hno (not_noFailure hret hnames.fallible (by decide))
  · refine ⟨v,u.interrupts,(called u c k).interrupts,?_⟩
    rw [hv,return_call v rfl]
    rfl

/-- A call of a run that returned `THREAD_INVALID` did so in its first step. -/
theorem Returns.at_once {s : State} {c : Call} {k : List Frame} (h : Reachable anyStep s)
    (hr : s.status = .running) (hf : s.frames = .own::k) (hnames : NamesThread c)
    (hret : Returns s c threadInvalid) : ReturnsIn s (doCall c (called s c k)) c threadInvalid := by
  obtain ⟨as,t,n,m,m',he,hh,hn⟩ := hret
  have hstart := step_called (c := c) hr hf
  induction as using List.reverseRecOn generalizing t n m m' with
  | nil =>
    have ht : doCall c (called s c k) = t := by simpa [exec,hstart] using he
    exact ⟨s.self,m',n ++ .call s.self c m::s.history,ht ▸ hh,
      (List.suffix_cons _ _).trans (List.suffix_append _ _)⟩
  | append_singleton as a ih =>
    rw [← List.cons_append,exec_append] at he
    obtain ⟨u,hu,hlast⟩ := Option.bind_eq_some_iff.mp he
    have hst : step u a = some t := (exec_singleton u a).symm.trans hlast
    have hur : Reachable anyStep u := reachable_of_exec h (fun _ _ _ => trivial) hu
    obtain ⟨new,hnew⟩ := step_history hur hst
    cases new with
    | nil => exact ih u n m m' hu (by rw [← hh,← hnew]; rfl) hn
    | cons e new =>
      -- the last step returned an error code, so it made the call; but the thread has made none
      rw [hh] at hnew
      obtain ⟨rfl,hrest⟩ := List.cons.inj hnew
      obtain ⟨v,m₁,m₂,ht⟩ := failing_call_history hur hst hnames ⟨_,_,_,hh,new,hrest⟩
      obtain ⟨hret,hcall⟩ := List.cons.inj (hh.symm.trans ht)
      have hself : s.self = u.self := (Event.ret.inj hret).1
      cases n with
      | nil =>
        have hsame : s.history = u.history := (List.cons.inj hcall).2
        obtain ⟨t₁,h₁,has⟩ := Option.bind_eq_some_iff.mp hu
        obtain rfl : doCall c (called s c k) = t₁ := Option.some.inj (hstart.symm.trans h₁)
        have hgrown := (called_answers (k := k) h hr hnames).history.trans
          (exec_history (.step _ h trivial h₁) has)
        have hlen := hgrown.length_le
        rw [← hsame] at hlen
        simp [called,State.record] at hlen
      | cons e n =>
        obtain ⟨rfl,-⟩ := List.cons.inj hcall
        have hno := hn _ List.mem_cons_self
        simp [isCall,hself] at hno

/-- What the first step returns. -/
theorem returns_of_return {s : State} {c : Call} {k : List Frame} (hr : s.status = .running)
    (hf : s.frames = .own::k) {v : ℤ} (hv : doCall c (called s c k) = return_ v (called s c k)) :
    Returns s c v := by
  refine ⟨[],doCall c (called s c k),[],s.interrupts,s.interrupts,?_,?_,by simp⟩
  · simp [exec,step_called hr hf]
  · rw [hv,return_call v rfl]
    rfl

theorem Returns.eq_of_return {s : State} {c : Call} {k : List Frame} (h : Reachable anyStep s)
    (hr : s.status = .running) (hf : s.frames = .own::k) (hnames : NamesThread c) {v : ℤ}
    (hv : doCall c (called s c k) = return_ v (called s c k)) (hret : Returns s c threadInvalid) :
    v = threadInvalid := by
  have hin := hret.at_once h hr hf hnames
  rw [hv] at hin
  have hframes : (called s c k).frames = .call c::.own::k := rfl
  exact (returnsIn_call hframes hin).2

/-- The tests let every identifier through that names a thread. -/
theorem tested_of_valid {s : State} {c : Call} (hnames : NamesThread c) (hv : ¬ Invalid s c) :
    Tested c := by
  have upper : ∀ tid b : ℤ, InTable tid → b < 0 → ¬ (-7 ≤ tid ∧ tid ≤ b) :=
    fun tid b ht hb hno => absurd (lt_of_le_of_lt (le_trans ht.1 hno.2) hb) (by decide)
  cases c with
  | threadYield tid => exact upper tid (-3) (not_not.mp fun ht => hv (.inl ht)) (by decide)
  | threadKill tid => exact upper tid (-1) (not_not.mp fun ht => hv (.inl ht)) (by decide)
  | threadWait tid => exact (not_not.mp fun ht => hv (.inl ht) : InTable tid).2
  | _ => cases hnames

/-! ### The calls of a run -/

/-- No step of a run, and so no part of these calls, touches an element that `TCBs` does not have
unless it leaves the model. The calls do not leave it, and return `THREAD_INVALID` exactly for the
invalid identifiers, if and only if the identifier is none that their tests miss. -/
theorem identifiers_validated {s : State} {c : Call} {k : List Frame} (h : Reachable anyStep s)
    (hr : s.status = .running) (hf : s.frames = .own::k) (hnames : NamesThread c) :
    (∀ T a, step (outside T s) a = (step s a).map (outside T)) ∧ (Validates s c ↔ Tested c) := by
  refine ⟨fun T a => outside_step_of_reachable h hr T a,?_⟩
  have hstart := step_called (c := c) hr hf
  have hinvalid : Invalid (called s c k) c ↔ Invalid s c := by cases c <;> exact Iff.rfl
  have inside : (doCall c (called s c k)).status ≠ .undefined →
      ∀ t, step s (.call c) = some t → t.status ≠ .undefined := fun hne t ht => by
    obtain rfl := Option.some.inj (hstart.symm.trans ht)
    exact hne
  have hrunning : ∀ v, (return_ v (called s c k)).status ≠ .undefined := fun v =>
    (return_onward v (called s c k)).not_undefined hr
  cases called_answers (k := k) h hr hnames with
  | refuses htested hno ht =>
    refine ⟨fun _ => htested,fun _ => ⟨inside (ht ▸ hrunning _),⟨fun _ => hinvalid.mp hno,fun _ => ?_⟩⟩⟩
    exact returns_of_return hr hf ht
  | leaves htested ht =>
    exact ⟨fun hv => absurd (congrArg State.status ht) (hv.inside _ hstart),fun h => absurd h htested⟩
  | misses htested hno ht =>
    refine ⟨fun hv => ?_,fun h => absurd h htested⟩
    have hnone := (hv.exact.mpr (hinvalid.mp hno)).eq_of_return h hr hf hnames ht
    exact absurd hnone (by decide)
  | returns v hyes hne ht =>
    refine ⟨fun _ => tested_of_valid hnames hyes,fun _ => ⟨inside (ht ▸ hrunning v),?_⟩⟩
    exact ⟨fun hret => absurd (hret.eq_of_return h hr hf hnames ht) hne,
      fun hno => absurd (hinvalid.mpr hno) hyes⟩
  | proceeds hyes ho hno =>
    refine ⟨fun _ => tested_of_valid hnames hyes,fun _ => ⟨inside (ho.not_undefined hr),?_⟩⟩
    have hfails : Returns s c threadInvalid → ¬ NoFailure s.history _ := fun hret =>
      not_noFailure (hret.at_once h hr hf hnames) hnames.fallible (by decide)
    exact ⟨fun hret => absurd hno (hfails hret),fun hno => absurd (hinvalid.mpr hno) hyes⟩

/-- The main thread names itself, a slot in use by nobody and a slot that there is not. -/
theorem mainThread_validated : Validates threadInit (.threadKill 0) ∧ Validates threadInit (.threadWait 5) ∧
    Validates threadInit (.threadYield 1024) := by
  have main : ∀ c, NamesThread c → Tested c → Validates threadInit c := fun c hnames =>
    (identifiers_validated .init rfl rfl hnames).2.mpr
  exact ⟨main _ trivial (by simp [Tested]),main _ trivial (by simp [Tested,threadMaxThreads]),
    main _ (by simp [NamesThread,threadAny,threadSelf]) (by simp [Tested])⟩

/-- `thread_kill(-1)` reads before the array, `thread_wait(1024)` behind it, and `thread_yield(-3)`
answers `THREAD_NONE`. -/
theorem mainThread_not_validated : Reachable anyStep threadInit ∧
    ¬ Validates threadInit (.threadKill (-1)) ∧ ¬ Validates threadInit (.threadWait 1024) ∧
    NamesThread (.threadYield (-3)) ∧ ¬ Validates threadInit (.threadYield (-3)) := by
  have hnames : NamesThread (.threadYield (-3)) := by simp [NamesThread,threadAny,threadSelf]
  refine ⟨.init,fun h => h.inside _ rfl rfl,fun h => h.inside _ rfl rfl,hnames,fun h => ?_⟩
  have hret := h.exact.mpr (.inl (by decide))
  have hnone : threadNone = threadInvalid := hret.eq_of_return (k := []) .init rfl rfl hnames rfl
  exact absurd hnone (by decide)

end TidChecks
end OsLabs

import OsLabs.InflightQueue

/-!
# Waiting for a file to be sent

The model of the wait of `remove_from_cache` in `webserver/server_thread.c` for the requests
that send the file, with each section under `inflight_access` or under the `file_lock` of an
entry as one step. The evictor looks up an entry under one mutex and waits on it under another;
a sender removes an entry, perhaps the one of another sender, and signals it.
-/

namespace OsLabs
namespace EvictionWait

open CacheModel InflightQueue LinkedQueue Transition

inductive SenderPc
  | idle
  | sending (filename : FileName)
  /-- the entry has been removed, and the signal not been sent -/
  | signalling (foundFile : Addr)
  deriving DecidableEq

inductive EvictorPc
  | idle
  /-- before `isInFlight` -/
  | looking (filename : FileName)
  /-- `inflight_access` is released, and the entry not locked -/
  | found (filename : FileName) (inFlightFile : Addr)
  /-- in `pthread_cond_wait` on the `file_cv` of the entry -/
  | waiting (filename : FileName) (inFlightFile : Addr)
  /-- the wait is over, and the entry not deallocated -/
  | woken (filename : FileName) (inFlightFile : Addr)
  deriving DecidableEq

/-- `undefined` follows an access to an entry that was freed, or through `NULL`. -/
inductive Status
  | running | undefined
  deriving DecidableEq

/-- The last three lists are the entries that `remove_from_queue` has returned, the ones whose
signal has been sent, and the ones that were freed before `remove_from_queue` returned them. -/
structure State where
  inflightQ : Queue FileName
  workers : Worker → SenderPc
  evictor : EvictorPc
  status : Status
  unlinked : List Addr
  signalled : List Addr
  freedLinked : List Addr

def State.setWorker (w : Worker) (pc : SenderPc) (s : State) : State :=
  { s with workers := Function.update s.workers w pc }

/-- `pthread_cond_signal` on the `file_cv` of an entry. -/
def EvictorPc.signal (entry : Addr) : EvictorPc → EvictorPc
  | .waiting filename inFlightFile =>
    if inFlightFile = entry then .woken filename inFlightFile else .waiting filename inFlightFile
  | pc => pc

inductive Action
  | add (w : Worker) (filename : FileName)
  | remove (w : Worker)
  | signal (w : Worker)
  | evict (filename : FileName)
  /-- the evictor goes on -/
  | evictor
  | spurious
  deriving DecidableEq

/-- The next section of `remove_from_cache`. -/
def stepEvictor (s : State) : Option State :=
  match s.evictor with
  | .idle => none
  | .looking filename =>
    match isInFlight filename s.inflightQ with
    | none => some { s with status := .undefined }
    | some none => some { s with evictor := .idle }
    | some (some inFlightFile) => some { s with evictor := .found filename inFlightFile }
  | .found filename inFlightFile =>
    match s.inflightQ.cells inFlightFile with
    | none => some { s with status := .undefined }
    | some _ => some { s with evictor := .waiting filename inFlightFile }
  | .waiting _ _ => none
  | .woken filename inFlightFile =>
    some { s with
      inflightQ := free inFlightFile s.inflightQ
      evictor := .looking filename
      freedLinked :=
        if inFlightFile ∈ s.unlinked then s.freedLinked else inFlightFile::s.freedLinked }

/-- `do_server_request` around `request_sendfile`. -/
def stepSender (s : State) : Action → Option State
  | .add w filename =>
    if s.workers w ≠ .idle then none
    else match addToQueue filename s.inflightQ with
    | none => some { s with status := .undefined }
    | some (_,q) => some ({ s with inflightQ := q }.setWorker w (.sending filename))
  | .remove w =>
    match s.workers w with
    | .sending filename =>
      match removeFromQueue filename s.inflightQ with
      | some (some foundFile,q) =>
        some ({ s with inflightQ := q, unlinked := foundFile::s.unlinked }.setWorker w
          (.signalling foundFile))
      | _ => some { s with status := .undefined }
    | _ => none
  | .signal w =>
    match s.workers w with
    | .signalling foundFile =>
      match s.inflightQ.cells foundFile with
      | none => some { s with status := .undefined }
      | some _ =>
        some ({ s with
          evictor := s.evictor.signal foundFile, signalled := foundFile::s.signalled }.setWorker w
          .idle)
    | _ => none
  | _ => none

def step (s : State) (a : Action) : Option State :=
  if s.status ≠ .running then none
  else match a with
  | .evict filename => if s.evictor ≠ .idle then none else some { s with evictor := .looking filename }
  | .evictor => stepEvictor s
  | .spurious =>
    match s.evictor with
    | .waiting filename inFlightFile => some { s with evictor := .woken filename inFlightFile }
    | _ => none
  | a => stepSender s a

def init : State where
  inflightQ := empty FileName
  workers := fun _ => .idle
  evictor := .idle
  status := .running
  unlinked := []
  signalled := []
  freedLinked := []

/-! ## When the evictor is safe -/

/-- No signal of the entry that the evictor has looked up is sent before it waits, and the evictor
does not wake up spuriously while its entry is linked. -/
def Timely (s : State) (a : Action) : Prop :=
  (∀ w filename entry, a = .signal w → s.evictor = .found filename entry →
    s.workers w ≠ .signalling entry) ∧
  (∀ filename entry, a = .spurious → s.evictor = .waiting filename entry → entry ∈ s.unlinked)

/-- The evictor waits on no entry whose signal has been sent, and has freed no linked entry. -/
def Safe (s : State) : Prop :=
  (∀ filename entry, s.evictor = .waiting filename entry → entry ∉ s.signalled) ∧
    s.freedLinked = []

/-- An entry is unlinked before its signal is sent, and the evictor is not behind the senders. -/
structure Inv (s : State) (l : List (Addr × FileName)) : Prop where
  linked : Linked s.inflightQ l
  unlinked : ∀ a ∈ s.unlinked, a < s.inflightQ.fresh ∧ a ∉ addrs l
  signalling : ∀ w a, s.workers w = .signalling a → a ∈ s.unlinked
  signalled : ∀ a ∈ s.signalled, a ∈ s.unlinked
  found : ∀ filename a, s.evictor = .found filename a → a ∉ s.signalled
  waiting : ∀ filename a, s.evictor = .waiting filename a → a ∉ s.signalled
  woken : ∀ filename a, s.evictor = .woken filename a → a ∈ s.unlinked
  freed : s.freedLinked = []

section Steps

variable {s s' : State} {l : List (Addr × FileName)} {a : Action} {w : Worker} {filename : FileName}
  {entry e : Addr}

theorem inv_init : Inv init [] where
  linked := linked_empty
  unlinked _ h := by cases h
  signalling _ _ h := by cases h
  signalled _ h := by cases h
  found _ _ h := by cases h
  waiting _ _ h := by cases h
  woken _ _ h := by cases h
  freed := rfl

theorem found_of_signal {pc : EvictorPc} (h : pc.signal entry = .found filename e) :
    pc = .found filename e := by
  cases pc with
  | waiting n a =>
    rw [EvictorPc.signal] at h
    split at h <;> cases h
  | _ => exact h

theorem waiting_of_signal {pc : EvictorPc} (h : pc.signal entry = .waiting filename e) :
    pc = .waiting filename e ∧ e ≠ entry := by
  cases pc with
  | waiting n a =>
    rw [EvictorPc.signal] at h
    split at h
    · cases h
    · rename_i hne
      cases h
      exact ⟨rfl,hne⟩
  | _ => cases h

theorem woken_of_signal {pc : EvictorPc} (h : pc.signal entry = .woken filename e) :
    pc = .woken filename e ∨ pc = .waiting filename e ∧ e = entry := by
  cases pc with
  | waiting n a =>
    rw [EvictorPc.signal] at h
    split at h
    · rename_i he
      cases h
      exact .inr ⟨rfl,he⟩
    · cases h
  | _ => exact .inl h

theorem Inv.stop (h : Inv s l) : Inv { s with status := .undefined } l :=
  ⟨h.linked,h.unlinked,h.signalling,h.signalled,h.found,h.waiting,h.woken,h.freed⟩

theorem Inv.setEvictor {pc : EvictorPc} (h : Inv s l)
    (hfound : ∀ filename a, pc = .found filename a → a ∉ s.signalled)
    (hwaiting : ∀ filename a, pc = .waiting filename a → a ∉ s.signalled)
    (hwoken : ∀ filename a, pc = .woken filename a → a ∈ s.unlinked) :
    Inv { s with evictor := pc } l :=
  ⟨h.linked,h.unlinked,h.signalling,h.signalled,hfound,hwaiting,hwoken,h.freed⟩

theorem Inv.setWorker {pc : SenderPc} (h : Inv s l) (hpc : ∀ a, pc = .signalling a → a ∈ s.unlinked) :
    Inv (s.setWorker w pc) l := by
  refine ⟨h.linked,h.unlinked,fun v a hv => ?_,h.signalled,h.found,h.waiting,h.woken,h.freed⟩
  by_cases hvw : v = w
  · subst hvw
    exact hpc a ((Function.update_self ..).symm.trans hv)
  · exact h.signalling v a ((Function.update_of_ne hvw ..).symm.trans hv)

theorem Inv.add (h : Inv s l) {q : Queue FileName} {new : Addr}
    (hq : addToQueue filename s.inflightQ = some (new,q)) :
    Inv { s with inflightQ := q } (l ++ [(s.inflightQ.fresh,filename)]) := by
  obtain ⟨q',hq',hlinked,hfresh⟩ := h.linked.append filename
  simp only [addToQueue,hq',Option.bind_eq_bind,Option.bind_some] at hq
  obtain ⟨rfl,rfl⟩ := Prod.mk.inj (Option.some.inj hq)
  refine ⟨hlinked,fun a ha => ?_,h.signalling,h.signalled,h.found,h.waiting,h.woken,h.freed⟩
  obtain ⟨hlt,hnot⟩ := h.unlinked a ha
  refine ⟨hfresh ▸ Nat.lt_succ_of_lt hlt,fun hm => ?_⟩
  rw [addrs_append] at hm
  rcases List.mem_append.mp hm with hm | hm
  · exact hnot hm
  · exact hlt.ne (List.mem_singleton.mp hm)

/-- The entry that is found first leaves the list. -/
theorem Inv.remove (h : Inv s l) {q : Queue FileName}
    (hq : removeFromQueue filename s.inflightQ = some (some entry,q)) :
    Inv { s with inflightQ := q, unlinked := entry::s.unlinked }
      (l.eraseP (·.2 = filename)) := by
  obtain ⟨q',hq',hlinked,hfresh⟩ := h.linked.unlink (p := (· = filename))
  obtain ⟨hfind,rfl⟩ := Prod.mk.inj (Option.some.inj (hq'.symm.trans hq))
  obtain ⟨e,he,rfl⟩ := Option.map_eq_some_iff.mp hfind
  have hsub : addrs (l.eraseP (·.2 = filename)) ⊆ addrs l :=
    (List.eraseP_sublist.map _).subset
  have hmem : e.1 ∈ addrs l := List.mem_map_of_mem (List.mem_of_find?_eq_some he)
  have hperm : (addrs l).Perm (e.1::addrs (l.eraseP (·.2 = filename))) :=
    (perm_eraseP he).map _
  have hnodup := (List.nodup_cons.mp (hperm.nodup_iff.mp h.linked.nodup)).1
  refine ⟨hlinked,fun a ha => ?_,?_,?_,h.found,h.waiting,?_,h.freed⟩
  · rcases List.mem_cons.mp ha with rfl | ha
    · exact ⟨hfresh ▸ h.linked.lt_fresh hmem,hnodup⟩
    · obtain ⟨hlt,hnot⟩ := h.unlinked a ha
      exact ⟨hfresh ▸ hlt,fun hm => hnot (hsub hm)⟩
  · exact fun w a hw => List.mem_cons_of_mem _ (h.signalling w a hw)
  · exact fun a ha => List.mem_cons_of_mem _ (h.signalled a ha)
  · exact fun n a ha => List.mem_cons_of_mem _ (h.woken n a ha)

theorem Inv.signal (h : Inv s l) (hw : s.workers w = .signalling entry)
    (hfound : ∀ filename, s.evictor ≠ .found filename entry) :
    Inv { s with evictor := s.evictor.signal entry, signalled := entry::s.signalled } l := by
  have hunlinked := h.signalling w entry hw
  refine ⟨h.linked,h.unlinked,h.signalling,fun a ha => ?_,fun n a ha hm => ?_,fun n a ha hm => ?_,
    fun n a ha => ?_,h.freed⟩
  · rcases List.mem_cons.mp ha with rfl | ha
    · exact hunlinked
    · exact h.signalled a ha
  · have he := found_of_signal ha
    rcases List.mem_cons.mp hm with rfl | hm
    · exact hfound n he
    · exact h.found n a he hm
  · obtain ⟨he,hne⟩ := waiting_of_signal ha
    rcases List.mem_cons.mp hm with rfl | hm
    · exact hne rfl
    · exact h.waiting n a he hm
  · rcases woken_of_signal ha with he | ⟨-,rfl⟩
    · exact h.woken n a he
    · exact hunlinked

/-- The evictor goes on; before it frees its entry, the entry has been unlinked. -/
theorem Inv.stepEvictor (h : Inv s l) (hs : stepEvictor s = some s') : Inv s' l := by
  unfold EvictionWait.stepEvictor at hs
  cases he : s.evictor with
  | idle => simp [he] at hs
  | looking filename =>
    have hfind : isInFlight filename s.inflightQ = _ := h.linked.find
    simp only [he,hfind] at hs
    cases hl : l.find? (fun e => decide (e.2 = filename)) with
    | none =>
      rw [hl] at hs
      obtain rfl := Option.some.inj hs
      exact h.setEvictor (by simp) (by simp) (by simp)
    | some e =>
      rw [hl] at hs
      obtain rfl := Option.some.inj hs
      have hmem : e.1 ∈ addrs l := List.mem_map_of_mem (List.mem_of_find?_eq_some hl)
      have hnot : e.1 ∉ s.signalled := fun hm => (h.unlinked _ (h.signalled _ hm)).2 hmem
      refine h.setEvictor ?_ (by simp) (by simp)
      rintro n a ha
      obtain ⟨-,rfl⟩ := EvictorPc.found.inj ha
      exact hnot
  | found filename entry =>
    simp only [he] at hs
    cases hcell : s.inflightQ.cells entry with
    | none =>
      rw [hcell] at hs
      obtain rfl := Option.some.inj hs
      rw [← he]
      exact h.stop
    | some c =>
      rw [hcell] at hs
      obtain rfl := Option.some.inj hs
      refine h.setEvictor (by simp) ?_ (by simp)
      rintro n a ha
      obtain ⟨-,rfl⟩ := EvictorPc.waiting.inj ha
      exact h.found filename entry he
  | waiting filename entry => simp [he] at hs
  | woken filename entry =>
    simp only [he] at hs
    obtain rfl := Option.some.inj hs
    have hunlinked := h.woken filename entry he
    refine ⟨h.linked.free (h.unlinked entry hunlinked).2,h.unlinked,h.signalling,h.signalled,
      by simp,by simp,by simp,?_⟩
    rw [if_pos hunlinked]
    exact h.freed

theorem Inv.stepSender (h : Inv s l)
    (hok : ∀ w filename entry, a = .signal w → s.evictor = .found filename entry →
      s.workers w ≠ .signalling entry)
    (hs : stepSender s a = some s') : ∃ l', Inv s' l' := by
  unfold EvictionWait.stepSender at hs
  cases a with
  | add w filename =>
    obtain ⟨-,hs⟩ := Option.ite_none_left_eq_some.mp hs
    cases hq : addToQueue filename s.inflightQ with
    | none =>
      rw [hq] at hs
      obtain rfl := Option.some.inj hs
      exact ⟨l,h.stop⟩
    | some r =>
      rw [hq] at hs
      obtain rfl := Option.some.inj hs
      exact ⟨_,(h.add hq).setWorker (by simp)⟩
  | remove w =>
    cases hw : s.workers w with
    | idle => simp [hw] at hs
    | signalling => simp [hw] at hs
    | sending filename =>
      simp only [hw] at hs
      split at hs
      · rename_i foundFile q hq
        obtain rfl := Option.some.inj hs
        refine ⟨_,(h.remove hq).setWorker fun a ha => ?_⟩
        obtain rfl := SenderPc.signalling.inj ha
        exact List.mem_cons_self
      · obtain rfl := Option.some.inj hs
        exact ⟨l,h.stop⟩
  | signal w =>
    cases hw : s.workers w with
    | idle => simp [hw] at hs
    | sending => simp [hw] at hs
    | signalling foundFile =>
      simp only [hw] at hs
      split at hs
      · obtain rfl := Option.some.inj hs
        exact ⟨l,h.stop⟩
      · obtain rfl := Option.some.inj hs
        have hsignal := h.signal hw fun filename he => hok w filename foundFile rfl he hw
        exact ⟨l,hsignal.setWorker (by simp)⟩
  | evict => cases hs
  | evictor => cases hs
  | spurious => cases hs

theorem Inv.step (h : Inv s l) (hok : Timely s a) (hs : step s a = some s') : ∃ l', Inv s' l' := by
  obtain ⟨-,hs⟩ := Option.ite_none_left_eq_some.mp hs
  cases a with
  | evict filename =>
    obtain ⟨-,hs⟩ := Option.ite_none_left_eq_some.mp hs
    obtain rfl := Option.some.inj hs
    exact ⟨l,h.setEvictor (by simp) (by simp) (by simp)⟩
  | evictor => exact ⟨l,h.stepEvictor hs⟩
  | spurious =>
    cases he : s.evictor with
    | waiting filename entry =>
      simp only [he] at hs
      obtain rfl := Option.some.inj hs
      refine ⟨l,h.setEvictor (by simp) (by simp) ?_⟩
      rintro n a ha
      obtain ⟨-,rfl⟩ := EvictorPc.woken.inj ha
      exact hok.2 filename entry rfl he
    | idle => simp [he] at hs
    | looking => simp [he] at hs
    | found => simp [he] at hs
    | woken => simp [he] at hs
  | add => exact h.stepSender hok.1 hs
  | remove => exact h.stepSender hok.1 hs
  | signal => exact h.stepSender hok.1 hs

/-- A signal between the look-up and the wait is missed. -/
theorem missed_of_signal {s₁ s₂ : State} (hw : s.workers w = .signalling entry)
    (he : s.evictor = .found filename entry) (hs : step s (.signal w) = some s₁)
    (hrun : s₁.status = .running) (hs₁ : step s₁ .evictor = some s₂) : ¬ Safe s₂ := by
  obtain ⟨-,hs⟩ := Option.ite_none_left_eq_some.mp hs
  simp only [EvictionWait.stepSender,hw] at hs
  cases hcell : s.inflightQ.cells entry with
  | none =>
    rw [hcell] at hs
    obtain rfl := Option.some.inj hs
    cases hrun
  | some c =>
    rw [hcell] at hs
    obtain rfl := Option.some.inj hs
    obtain ⟨-,hs₁⟩ := Option.ite_none_left_eq_some.mp hs₁
    simp only [EvictionWait.stepEvictor,State.setWorker,he,EvictorPc.signal,hcell] at hs₁
    obtain rfl := Option.some.inj hs₁
    exact fun hsafe => hsafe.1 filename entry rfl List.mem_cons_self

/-- A spurious wakeup before the entry is unlinked frees a linked entry. -/
theorem freedLinked_of_spurious {s₁ s₂ : State} (he : s.evictor = .waiting filename entry)
    (hlinked : entry ∉ s.unlinked) (hs : step s .spurious = some s₁)
    (hs₁ : step s₁ .evictor = some s₂) : ¬ Safe s₂ := by
  obtain ⟨-,hs⟩ := Option.ite_none_left_eq_some.mp hs
  simp only [he] at hs
  obtain rfl := Option.some.inj hs
  obtain ⟨-,hs₁⟩ := Option.ite_none_left_eq_some.mp hs₁
  simp only [EvictionWait.stepEvictor,if_neg hlinked] at hs₁
  obtain rfl := Option.some.inj hs₁
  exact fun hsafe => List.cons_ne_nil _ _ hsafe.2

/-- In every run whose steps are timely the evictor misses no signal and frees no linked entry; and
after a step that is not timely its next step does. -/
theorem evictor_safe_iff_timely (s : State) :
    (Reachable init step Timely s → Safe s) ∧
    (∀ a s₁ s₂, ¬ Timely s a → step s a = some s₁ → s₁.status = .running →
      step s₁ .evictor = some s₂ → ¬ Safe s₂) := by
  constructor
  · intro h
    obtain ⟨l,hinv⟩ := h.invariant (P := fun s => ∃ l, Inv s l) ⟨[],inv_init⟩
      (fun s a s' ⟨l,hinv⟩ hok hs => hinv.step hok hs)
    exact ⟨hinv.waiting,hinv.freed⟩
  · intro a s₁ s₂ hok hs hrun hs₁
    rcases not_and_or.mp hok with hok | hok
    · push Not at hok
      obtain ⟨w,filename,entry,rfl,he,hw⟩ := hok
      exact missed_of_signal hw he hs hrun hs₁
    · push Not at hok
      obtain ⟨filename,entry,rfl,he,hlinked⟩ := hok
      exact freedLinked_of_spurious he hlinked hs hs₁

end Steps

/-- A test of a step: a signal goes to an entry that nobody has only looked up, and nobody wakes up
without one. -/
def signalsInTime (s : State) : Action → Bool
  | .signal w => match s.evictor with
    | .found _ entry => s.workers w ≠ .signalling entry
    | _ => true
  | .spurious => false
  | _ => true

theorem timely_of_signalsInTime (s : State) (a : Action) (h : signalsInTime s a = true) :
    Timely s a := by
  constructor
  · rintro w filename entry rfl he
    simpa [signalsInTime,he] using h
  · rintro filename entry rfl
    cases h

/-- The evictor waits for the sender and finds that no entry is left. -/
def waitedFor : State :=
  final step [.add 0 nameA,.evict nameA,.evictor,.evictor,.remove 0,.signal 0,.evictor,.evictor] init
    (by decide +kernel)

theorem waitedFor_safe : waitedFor.evictor = .idle ∧ waitedFor.signalled = [0] ∧ Safe waitedFor :=
  ⟨by decide +kernel,by decide +kernel,(evictor_safe_iff_timely waitedFor).1
    (reachable_final_of_checked timely_of_signalsInTime .init (by decide +kernel))⟩

/-- The sender removes its entry and signals it between the look-up and the wait. -/
def missedSignal : State :=
  final step [.add 0 nameA,.evict nameA,.evictor,.remove 0,.signal 0,.evictor] init
    (by decide +kernel)

/-- The evictor wakes up while the sender is still sending. -/
def freedEntry : State :=
  final step [.add 0 nameA,.evict nameA,.evictor,.evictor,.spurious,.evictor] init
    (by decide +kernel)

/-- Either half of the safety of the evictor fails in some run. -/
theorem evictor_unsafe :
    (¬ ∀ s, Reachable init step (fun _ _ => True) s → ∀ filename entry,
      s.evictor = .waiting filename entry → entry ∉ s.signalled) ∧
    ¬ ∀ s, Reachable init step (fun _ _ => True) s → s.freedLinked = [] := by
  constructor
  · intro h
    have hwaiting : missedSignal.evictor = .waiting nameA 0 := by decide +kernel
    have hsignalled : missedSignal.signalled = [0] := by decide +kernel
    refine h missedSignal (reachable_final .init fun _ _ _ => trivial) _ 0 hwaiting ?_
    rw [hsignalled]
    exact List.mem_singleton_self 0
  · intro h
    have hfreed : freedEntry.freedLinked = [0] := by decide +kernel
    rw [h freedEntry (reachable_final .init fun _ _ _ => trivial)] at hfreed
    cases hfreed

end EvictionWait
end OsLabs

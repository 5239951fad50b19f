import OsLabs.RequestModel
import OsLabs.Transition

/-!
# Closing the connections

`request_destroy` closes the connection of a request and frees its structure. Every path of
`do_server_request` calls it once but one: with a cache, a file that cannot be read after a miss
goes through `out:`, which destroys the request and falls through to `done:`.
-/

namespace OsLabs
namespace RequestClosing

open CacheModel ServerModel RequestModel Transition

variable {requests : File → Request} {maxCacheSize : BitVec 32} {s s' : State} {w : Worker}

/-- The events that end a request. -/
def isEnd : Event → Bool
  | .closed _ | .freedRequest _ | .returned _ => true
  | _ => false

/-- The request that the event is about. -/
def number : Event → File
  | .allocated n _ | .freed n _ | .closed n | .freedRequest n | .sent n _ | .returned n => n

def ends (l : List Event) : List Event := l.filter isEnd

theorem ends_append (l m : List Event) : ends (l ++ m) = ends l ++ ends m := List.filter_append ..

theorem ends_requestDestroy (n : File) : ends (requestDestroy n) = requestDestroy n := rfl

theorem ends_returned (n : File) : ends [.returned n] = [.returned n] := rfl

theorem ends_fileDataFree (n : File) (size : BitVec 32) : ends (fileDataFree n size) = [] := by
  unfold fileDataFree
  split <;> rfl

theorem ends_allocateBuf (n : File) (size : BitVec 32) : ends (allocateBuf n size) = [] := by
  unfold allocateBuf
  split <;> rfl

theorem ends_lookupEvents (data : File) (c : Cache) : ends (lookupEvents requests data c) = [] := by
  unfold lookupEvents
  split <;> rfl

theorem count_ends {e : Event} (he : isEnd e = true) (l : List Event) :
    (ends l).count e = l.count e := List.count_filter he

theorem mem_ends {e : Event} (he : isEnd e = true) {l : List Event} : e ∈ ends l ↔ e ∈ l := by
  simp [ends,he]

/-! ### Who is at work -/

/-- The worker has not finished, and nothing else has changed that a request is known by. -/
structure GoesOn (w : Worker) (t t' : Server) : Prop where
  others : ∀ v, v ≠ w → t'.workers v = t.workers v
  busy : t'.workers w ≠ .idle
  nextFile : t'.nextFile = t.nextFile

section Server

variable {files : File → FileData} {t t' u : Server} {data elem : File}

theorem goesOn_setWorker {pc : Pc} (hw : u.workers = t.workers) (hn : u.nextFile = t.nextFile)
    (hpc : pc ≠ .idle) : GoesOn w t (u.setWorker w pc) where
  others v hv := (Function.update_of_ne hv ..).trans (congrFun hw v)
  busy hw := hpc ((Function.update_self ..).symm.trans hw)
  nextFile := hn

theorem goesOn_stop (status : Status) (h : t.workers w ≠ .idle) :
    GoesOn w t { t with status := status } :=
  ⟨fun _ _ => rfl,h,rfl⟩

theorem goesOn_leaveInsert {p : Progress} (hw : u.workers = t.workers)
    (hn : u.nextFile = t.nextFile) (h : t.workers w ≠ .idle) :
    GoesOn w t (leaveInsert files w data p u) := by
  have hstop : ∀ status, GoesOn w t { u with status := status } := fun _ =>
    ⟨fun v _ => congrFun hw v,fun hi => h ((congrFun hw w).symm.trans hi),hn⟩
  cases p with
  | returns inserted c => exact goesOn_setWorker hw hn (by simp)
  | crashes => exact hstop _
  | removes elem c =>
    unfold leaveInsert
    split
    · rename_i he
      cases he
    · exact hstop _
    · rename_i he
      obtain ⟨rfl,rfl⟩ := Progress.removes.inj he
      split
      · exact hstop _
      · exact goesOn_setWorker hw hn (by simp)

/-- A worker that is at work and has not got to its last step goes on. -/
theorem runWorker_goesOn (h : t.workers w ≠ .idle) (hs : ∀ e, t.workers w ≠ .signalling e)
    (hst : runWorker files w t = some t') : GoesOn w t t' := by
  unfold runWorker at hst
  split at hst
  · rename_i hw
    exact absurd hw h
  · obtain ⟨-,hst⟩ := Option.ite_none_right_eq_some.mp hst
    obtain rfl := Option.some.inj hst
    unfold firstSection
    split
    · exact goesOn_setWorker rfl rfl (by simp)
    · exact goesOn_stop _ h
    · exact goesOn_setWorker rfl rfl (by simp)
  · obtain rfl := Option.some.inj hst
    exact goesOn_setWorker rfl rfl (by simp)
  · obtain ⟨-,hst⟩ := Option.ite_none_right_eq_some.mp hst
    obtain rfl := Option.some.inj hst
    unfold secondSection
    split
    · exact goesOn_leaveInsert rfl rfl h
    · exact goesOn_stop _ h
    · exact goesOn_setWorker rfl rfl (by simp)
  · obtain rfl := Option.some.inj hst
    unfold afterWait
    split
    · exact goesOn_stop _ h
    · exact goesOn_leaveInsert rfl rfl h
  · obtain rfl := Option.some.inj hst
    exact goesOn_setWorker rfl rfl (by simp)
  · obtain rfl := Option.some.inj hst
    exact goesOn_setWorker rfl rfl (by simp)
  · split at hst
    · obtain rfl := Option.some.inj hst
      exact goesOn_stop _ h
    · obtain rfl := Option.some.inj hst
      exact goesOn_setWorker rfl rfl (by simp)
  · rename_i e hw
    exact absurd hw (hs e)

end Server

/-! ### The steps of a request -/

/-- The request is read after a miss, and cannot be. -/
def ReadFails (requests : File → Request) (maxCacheSize : BitVec 32) (s : State) (w : Worker) :
    Prop :=
  hasCache maxCacheSize = true ∧
    ∃ data error, s.server.workers w = .missed data ∧ readOf requests data = .error error

/-- The end of a request that is destroyed `k` times. -/
def endOf (n : File) (k : ℕ) : List Event :=
  (List.replicate k (requestDestroy n)).flatten ++ [.returned n]

/-- What a step does to the requests and to the events that end them. -/
inductive Turn (fails : Prop) (s : State) (w : Worker) (s' : State) : Prop
  | inside (hw : s.server.workers w ≠ .idle) (hgo : GoesOn w s.server s'.server)
      (hr : s'.request = s.request) (hl : ends s'.log = ends s.log)
  | starts (hw : s.server.workers w = .idle) (hw' : s'.server.workers w ≠ .idle)
      (ho : ∀ v, v ≠ w → s'.server.workers v = s.server.workers v)
      (hn : s'.server.nextFile = s.server.nextFile+1)
      (hr : s'.request = Function.update s.request w s.server.nextFile)
      (hl : ends s'.log = ends s.log)
  | refused (hw : s'.server.workers = s.server.workers)
      (hn : s'.server.nextFile = s.server.nextFile+1) (hr : s'.request = s.request)
      (hl : ends s'.log = ends s.log ++ endOf s.server.nextFile 1)
  | finished (k : ℕ) (hk : ¬ fails → k = 1) (hw : s.server.workers w ≠ .idle)
      (ho : ∀ v, v ≠ w → s'.server.workers v = s.server.workers v)
      (hw' : s'.server.workers w = .idle) (hn : s'.server.nextFile = s.server.nextFile)
      (hr : s'.request = s.request) (hl : ends s'.log = ends s.log ++ endOf (s.request w) k)

theorem startRequest_turn {pc : Pc} {fails : Prop} (hw : s.server.workers w = .idle)
    (hpc : pc ≠ .idle) : Turn fails s w (startRequest requests w pc s) := by
  unfold startRequest
  dsimp only
  cases requestInit (requests s.server.nextFile) with
  | error e =>
    refine .refused rfl rfl rfl ?_
    simp only [State.emit,ends_append,ends_fileDataFree,ends_requestDestroy,ends_returned,endOf]
    rfl
  | ok name =>
    refine .starts hw ?_ (fun v hv => Function.update_of_ne hv ..) rfl rfl ?_
    · exact fun hi => hpc ((Function.update_self ..).symm.trans hi)
    · simp only [State.emit,ends_append]
      exact List.append_nil _

/-- A step of the server that adds no end of a request. -/
theorem turn_goOn {fails : Prop} {events : List Event} (hw : s.server.workers w ≠ .idle)
    (hsig : ∀ e, s.server.workers w ≠ .signalling e) (hl : ends events = [])
    (hs : (runWorker (fileData requests) w s.server).map (s.emit events) = some s') :
    Turn fails s w s' := by
  obtain ⟨server,hst,rfl⟩ := Option.map_eq_some_iff.mp hs
  refine .inside hw (runWorker_goesOn hw hsig hst) rfl ?_
  simp only [State.emit,ends_append,hl,List.append_nil]

theorem turn_undefined {fails : Prop} {events : List Event} (hw : s.server.workers w ≠ .idle)
    (hl : ends events = [])
    (hs : some (s.emit events { s.server with status := .undefined }) = some s') :
    Turn fails s w s' := by
  obtain rfl := Option.some.inj hs
  refine .inside hw (goesOn_stop _ hw) rfl ?_
  simp only [State.emit,ends_append,hl,List.append_nil]

theorem turn_finished {fails : Prop} {events : List Event} {t : Server} {k : ℕ}
    (hk : ¬ fails → k = 1) (hw : s.server.workers w ≠ .idle)
    (ht : t.workers = s.server.workers) (hn : t.nextFile = s.server.nextFile)
    (hl : ends events = endOf (s.request w) k) :
    Turn fails s w (s.emit events (t.setWorker w .idle)) := by
  refine .finished k hk hw (fun v hv => ?_) (Function.update_self ..) hn rfl ?_
  · exact (Function.update_of_ne hv ..).trans (congrFun ht v)
  · simp only [State.emit,ends_append,hl]

theorem cachedStep_turn (hc : hasCache maxCacheSize = true) (hrun : s.server.status = .running)
    (hs : cachedStep requests w s = some s') : Turn (ReadFails requests maxCacheSize s w) s w s' := by
  unfold cachedStep at hs
  dsimp only at hs
  split at hs
  · rename_i hw
    obtain rfl := Option.some.inj hs
    exact startRequest_turn hw (by simp)
  · rename_i data hw
    exact turn_goOn (by simp [hw]) (by simp [hw]) (ends_lookupEvents ..) hs
  · rename_i data hw
    cases hr : readOf requests data with
    | error e =>
      rw [hr] at hs
      obtain ⟨t,hst,rfl⟩ := Option.map_eq_some_iff.mp hs
      simp only [failWorker,hw] at hst
      obtain rfl := Option.some.inj hst
      refine turn_finished (k := 2) (fun hn => absurd ⟨hc,data,e,hw,hr⟩ hn) (by simp [hw]) rfl rfl ?_
      simp only [ends_append,ends_fileDataFree,ends_requestDestroy,ends_returned]
      rfl
    | ok size =>
      rw [hr] at hs
      exact turn_goOn (by simp [hw]) (by simp [hw]) (ends_allocateBuf ..) hs
  · rename_i data hw
    exact turn_goOn (by simp [hw]) (by simp [hw]) (ends_lookupEvents ..) hs
  · rename_i hw
    exact turn_goOn (by simp [hw]) (by simp [hw]) rfl hs
  · rename_i data hw
    split at hs
    · exact turn_undefined (by simp [hw]) rfl hs
    · exact turn_goOn (by simp [hw]) (by simp [hw]) rfl hs
  · rename_i data hw
    split at hs
    · exact turn_undefined (by simp [hw]) rfl hs
    · exact turn_goOn (by simp [hw]) (by simp [hw]) rfl hs
  · rename_i data hw
    split at hs
    · exact turn_undefined (by simp [hw]) rfl hs
    · exact turn_goOn (by simp [hw]) (by simp [hw]) rfl hs
  · rename_i foundFile hw
    obtain ⟨t,hst,rfl⟩ := Option.map_eq_some_iff.mp hs
    simp only [runWorker,hw] at hst
    split at hst
    · obtain rfl := Option.some.inj hst
      exact turn_undefined (by simp [hw]) rfl rfl
    · obtain rfl := Option.some.inj hst
      have hrun' : (s.server.setWorker w .idle).status = .running := hrun
      rw [if_pos hrun']
      exact turn_finished (fun _ => rfl) (by simp [hw]) rfl rfl rfl

theorem plainStep_turn {fails : Prop} (hs : plainStep requests w s = some s') :
    Turn fails s w s' := by
  unfold plainStep at hs
  dsimp only at hs
  split at hs
  · rename_i hw
    obtain rfl := Option.some.inj hs
    exact startRequest_turn hw (by simp)
  · rename_i data hw
    have hbusy : s.server.workers w ≠ .idle := by simp [hw]
    cases hr : readOf requests data with
    | error e =>
      rw [hr] at hs
      obtain rfl := Option.some.inj hs
      refine turn_finished (fun _ => rfl) hbusy rfl rfl ?_
      simp only [ends_append,ends_fileDataFree,ends_requestDestroy,ends_returned]
      rfl
    | ok size =>
      rw [hr] at hs
      obtain rfl := Option.some.inj hs
      refine .inside hbusy (goesOn_setWorker rfl rfl (by simp)) rfl ?_
      simp only [State.emit,ends_append,ends_allocateBuf,List.append_nil]
  · rename_i data hw
    obtain rfl := Option.some.inj hs
    refine turn_finished (fun _ => rfl) (by simp [hw]) rfl rfl ?_
    simp only [ends_append,ends_fileDataFree,ends_requestDestroy,ends_returned]
    rfl
  · cases hs

theorem step_turn (hs : step requests maxCacheSize s w = some s') :
    Turn (ReadFails requests maxCacheSize s w) s w s' := by
  obtain ⟨hrun,hs⟩ := Option.ite_none_left_eq_some.mp hs
  split at hs
  · rename_i hc
    exact cachedStep_turn hc (not_not.mp hrun) hs
  · exact plainStep_turn hs

/-! ### The books -/

theorem number_endOf {n : File} {k : ℕ} {e : Event} (he : e ∈ endOf n k) : number e = n := by
  rcases List.mem_append.mp he with he | he
  · obtain ⟨l,hl,he⟩ := List.mem_flatten.mp he
    obtain rfl := List.eq_of_mem_replicate hl
    rcases List.mem_cons.mp he with rfl | he
    · rfl
    · obtain rfl := List.mem_singleton.mp he
      rfl
  · obtain rfl := List.mem_singleton.mp he
    rfl

theorem count_endOf (n : File) (k : ℕ) :
    (endOf n k).count (.closed n) = k ∧ (endOf n k).count (.freedRequest n) = k := by
  simp [endOf,List.count_append,List.count_flatten,requestDestroy]

/-- No event ends a request that is being served or has not come yet. -/
structure Books (s : State) : Prop where
  busy : ∀ w, s.server.workers w ≠ .idle →
    s.request w < s.server.nextFile ∧ ∀ e ∈ ends s.log, number e ≠ s.request w
  distinct : ∀ w v, s.server.workers w ≠ .idle → s.server.workers v ≠ .idle →
    s.request w = s.request v → w = v
  fresh : ∀ e ∈ ends s.log, number e < s.server.nextFile

/-- A request that has returned was destroyed once. -/
def Once (l : List Event) : Prop :=
  ∀ n, .returned n ∈ l → l.count (.closed n) = 1 ∧ l.count (.freedRequest n) = 1

/-- A request ends that no event has ended yet. -/
theorem Once.append {l : List Event} {n : File} (h : Once l) (hn : ∀ e ∈ l, number e ≠ n) :
    Once (l ++ endOf n 1) := by
  intro m hm
  rw [List.count_append,List.count_append]
  by_cases hmn : m = n
  · subst hmn
    have hzero : ∀ e, number e = m → l.count e = 0 := fun e he =>
      List.count_eq_zero.mpr fun hm => hn e hm he
    rw [hzero _ rfl,hzero _ rfl,(count_endOf m 1).1,(count_endOf m 1).2]
    exact ⟨rfl,rfl⟩
  · have hzero : ∀ e, number e = m → (endOf n 1).count e = 0 := fun e he =>
      List.count_eq_zero.mpr fun hm => hmn (he.symm.trans (number_endOf hm))
    rw [hzero _ rfl,hzero _ rfl]
    refine h m ((List.mem_append.mp hm).resolve_right fun hr => hmn ?_)
    exact number_endOf hr

theorem Books.once {fails : Prop} (h : Books s) (ho : Once (ends s.log)) (hok : ¬ fails)
    (ht : Turn fails s w s') : Once (ends s'.log) := by
  cases ht with
  | inside _ _ _ hl => exact hl ▸ ho
  | starts _ _ _ _ _ hl => exact hl ▸ ho
  | refused _ _ _ hl =>
    rw [hl]
    exact ho.append fun e he => (h.fresh e he).ne
  | finished k hk hw _ _ _ _ hl =>
    obtain rfl := hk hok
    rw [hl]
    exact ho.append (h.busy w hw).2

theorem Books.turn {fails : Prop} (h : Books s) (ht : Turn fails s w s') : Books s' := by
  cases ht with
  | inside hw hgo hr hl =>
    have hbusy : ∀ v, s'.server.workers v ≠ .idle → s.server.workers v ≠ .idle := by
      intro v hv
      by_cases hvw : v = w
      · exact hvw ▸ hw
      · exact hgo.others v hvw ▸ hv
    refine ⟨fun v hv => ?_,fun v u hv hu => ?_,?_⟩
    · rw [hr,hl,hgo.nextFile]
      exact h.busy v (hbusy v hv)
    · rw [hr]
      exact h.distinct v u (hbusy v hv) (hbusy u hu)
    · rw [hl,hgo.nextFile]
      exact h.fresh
  | starts hw hw' ho hn hr hl =>
    have hother : ∀ v, v ≠ w → s'.request v = s.request v := fun v hv => by
      rw [hr,Function.update_of_ne hv]
    have hself : s'.request w = s.server.nextFile := by rw [hr,Function.update_self]
    have hlt : ∀ v, v ≠ w → s'.server.workers v ≠ .idle → s.request v < s.server.nextFile :=
      fun v hv hi => (h.busy v (ho v hv ▸ hi)).1
    refine ⟨fun v hv => ?_,fun v u hv hu he => ?_,fun e he => ?_⟩
    · rw [hl,hn]
      by_cases hvw : v = w
      · rw [hvw,hself]
        exact ⟨Nat.lt_succ_self _,fun e he => (h.fresh e he).ne⟩
      · rw [hother v hvw]
        obtain ⟨hlt,hnot⟩ := h.busy v (ho v hvw ▸ hv)
        exact ⟨Nat.lt_succ_of_lt hlt,hnot⟩
    · by_cases hvw : v = w <;> by_cases huw : u = w
      · rw [hvw,huw]
      · rw [hvw,hself,hother u huw] at he
        exact absurd he (hlt u huw hu).ne'
      · rw [huw,hself,hother v hvw] at he
        exact absurd he (hlt v hvw hv).ne
      · rw [hother v hvw,hother u huw] at he
        exact h.distinct v u (ho v hvw ▸ hv) (ho u huw ▸ hu) he
    · rw [hl] at he
      rw [hn]
      exact Nat.lt_succ_of_lt (h.fresh e he)
  | refused hw hn hr hl =>
    refine ⟨fun v hv => ?_,fun v u hv hu => ?_,fun e he => ?_⟩
    · rw [hw] at hv
      obtain ⟨hlt,hnot⟩ := h.busy v hv
      rw [hr,hn,hl]
      refine ⟨Nat.lt_succ_of_lt hlt,fun e he => ?_⟩
      rcases List.mem_append.mp he with he | he
      · exact hnot e he
      · rw [number_endOf he]
        exact hlt.ne'
    · rw [hw] at hv hu
      rw [hr]
      exact h.distinct v u hv hu
    · rw [hl] at he
      rw [hn]
      rcases List.mem_append.mp he with he | he
      · exact Nat.lt_succ_of_lt (h.fresh e he)
      · rw [number_endOf he]
        exact Nat.lt_succ_self _
  | finished k _ hw ho hw' hn hr hl =>
    have hother : ∀ v, s'.server.workers v ≠ .idle → v ≠ w ∧ s.server.workers v ≠ .idle := by
      intro v hv
      have hvw : v ≠ w := by
        rintro rfl
        exact hv hw'
      exact ⟨hvw,ho v hvw ▸ hv⟩
    obtain ⟨hlt,hnot⟩ := h.busy w hw
    refine ⟨fun v hv => ?_,fun v u hv hu => ?_,fun e he => ?_⟩
    · obtain ⟨hvw,hv⟩ := hother v hv
      obtain ⟨hltv,hnotv⟩ := h.busy v hv
      rw [hr,hn,hl]
      refine ⟨hltv,fun e he => ?_⟩
      rcases List.mem_append.mp he with he | he
      · exact hnotv e he
      · rw [number_endOf he]
        exact fun he => hvw (h.distinct w v hw hv he).symm
    · rw [hr]
      exact h.distinct v u (hother v hv).2 (hother u hu).2
    · rw [hl] at he
      rw [hn]
      rcases List.mem_append.mp he with he | he
      · exact h.fresh e he
      · rw [number_endOf he]
        exact hlt

theorem books_init (maxCacheSize : BitVec 32) : Books (init maxCacheSize) where
  busy _ h := absurd rfl h
  distinct _ _ h := absurd rfl h
  fresh e h := by cases h

/-! ### Closed once -/

theorem Turn.others {fails : Prop} (h : Turn fails s w s') :
    ∀ v, v ≠ w → s'.server.workers v = s.server.workers v := by
  cases h with
  | inside _ hgo => exact hgo.others
  | starts _ _ ho => exact ho
  | refused hw => exact fun v _ => congrFun hw v
  | finished _ _ _ ho => exact ho

theorem Turn.request {fails : Prop} (h : Turn fails s w s') :
    ∀ v, v ≠ w ∨ s.server.workers v ≠ .idle → s'.request v = s.request v := by
  intro v hv
  cases h with
  | starts hw _ _ _ hr =>
    have hvw : v ≠ w := by
      rintro rfl
      exact hv.elim (fun hne => hne rfl) fun hb => hb hw
    rw [hr,Function.update_of_ne hvw]
  | inside _ _ hr => rw [hr]
  | refused _ _ hr => rw [hr]
  | finished _ _ _ _ _ _ hr => rw [hr]

/-- The events that end requests only become more. -/
theorem Turn.isPrefix {fails : Prop} (h : Turn fails s w s') : ends s.log <+: ends s'.log := by
  cases h with
  | inside _ _ _ hl => rw [hl]
  | starts _ _ _ _ _ hl => rw [hl]
  | refused _ _ _ hl =>
    rw [hl]
    exact List.prefix_append ..
  | finished _ _ _ _ _ _ _ hl =>
    rw [hl]
    exact List.prefix_append ..

/-- The failing read destroys its request twice. -/
theorem readFails_ends (h : ReadFails requests maxCacheSize s w)
    (hs : step requests maxCacheSize s w = some s') :
    ends s'.log = ends s.log ++ endOf (s.request w) 2 := by
  obtain ⟨hc,data,e,hw,hr⟩ := h
  obtain ⟨-,hs⟩ := Option.ite_none_left_eq_some.mp hs
  rw [if_pos hc] at hs
  simp only [cachedStep,hw,hr,failWorker,Option.map_some,Option.some.injEq] at hs
  subst hs
  simp only [State.emit,ends_append,ends_fileDataFree,ends_requestDestroy,ends_returned]
  rfl

/-- In every run without a failing read after a miss every request that has returned was closed
once and its structure was freed once; behind such a read its request has been closed more often. -/
theorem closed_once_iff_readable (requests : File → Request) (maxCacheSize : BitVec 32) :
    (∀ s, Reachable (init maxCacheSize) (step requests maxCacheSize)
        (fun s w => ¬ ReadFails requests maxCacheSize s w) s →
      ∀ n, .returned n ∈ s.log →
        s.log.count (.closed n) = 1 ∧ s.log.count (.freedRequest n) = 1) ∧
    (∀ s w s' t, ReadFails requests maxCacheSize s w → step requests maxCacheSize s w = some s' →
      Reachable s' (step requests maxCacheSize) (fun _ _ => True) t →
      .returned (s.request w) ∈ t.log ∧ 1 < t.log.count (.closed (s.request w))) := by
  constructor
  · intro s h n hn
    obtain ⟨-,honce⟩ := h.invariant (P := fun s => Books s ∧ Once (ends s.log))
      ⟨books_init maxCacheSize,fun _ hn => by cases hn⟩ fun s w s' hb hok hs =>
        ⟨hb.1.turn (step_turn hs),hb.1.once hb.2 hok (step_turn hs)⟩
    obtain ⟨hclosed,hfreed⟩ := honce n ((mem_ends rfl).mpr hn)
    rw [count_ends rfl] at hclosed hfreed
    exact ⟨hclosed,hfreed⟩
  · intro s w s' t hfails hs ht
    have hend : endOf (s.request w) 2 <:+: ends t.log := by
      refine ht.invariant (P := fun t => endOf (s.request w) 2 <:+: ends t.log) ?_
        fun t v t' hp _ hst => hp.trans (step_turn hst).isPrefix.isInfix
      rw [readFails_ends hfails hs]
      exact (List.suffix_append ..).isInfix
    refine ⟨(mem_ends rfl).mp (hend.subset (List.mem_append_right _ (List.mem_singleton_self _))),?_⟩
    have hcount := hend.sublist.count_le (.closed (s.request w))
    rw [(count_endOf (s.request w) 2).1,count_ends rfl] at hcount
    exact hcount

/-- The same file again and again. -/
def sameFile (_ : File) : Request :=
  ⟨⟨[71,69,84,32,47,121],by decide⟩,emptyString,emptyString,.file 100⟩

/-- The first request has been served. -/
def servedOnce : State :=
  final (step sameFile 4096) [0,0,0,0,0,0,0,0] (init 4096) (by decide +kernel)

theorem servedOnce_closed : .returned 0 ∈ servedOnce.log ∧
    servedOnce.log.count (.closed 0) = 1 ∧ servedOnce.log.count (.freedRequest 0) = 1 := by
  have hreturned : .returned 0 ∈ servedOnce.log := by decide +kernel
  have hrun : Reachable (init 4096) (step sameFile 4096) (fun s w => ¬ReadFails sameFile 4096 s w)
      servedOnce := reachable_final .init fun _ _ _ ⟨_,_,_,_,hfails⟩ => nomatch hfails
  exact ⟨hreturned,(closed_once_iff_readable sameFile 4096).1 servedOnce hrun 0 hreturned⟩

/-- A request for a file that is not there. -/
def missingFile (_ : File) : Request :=
  ⟨⟨[71,69,84,32,47,120],by decide⟩,emptyString,emptyString,.missing⟩

def closedTwice : State :=
  final (step missingFile 4096) [0,0,0] (init 4096) (by decide +kernel)

/-- The connection of the request is closed twice. -/
theorem closedTwice_log : ¬ ∀ requests maxCacheSize s,
    Reachable (init maxCacheSize) (step requests maxCacheSize) (fun _ _ => True) s →
    ∀ n, .returned n ∈ s.log →
      s.log.count (.closed n) = 1 ∧ s.log.count (.freedRequest n) = 1 := by
  intro h
  have hreturned : .returned 0 ∈ closedTwice.log := by decide +kernel
  have hcount : closedTwice.log.count (.closed 0) = 2 := by decide +kernel
  have hone := (h missingFile 4096 closedTwice (reachable_final .init fun _ _ _ => trivial) 0
    hreturned).1
  rw [hcount] at hone
  exact absurd hone (by decide)

end RequestClosing
end OsLabs

import OsLabs.FileOwnership

/-!
# The access checks behind the cache

Only `request_readfile` looks at the name of a file, and a file that is found in the cache is
sent without it. Every name in the cache has passed the checks, and a request finds a file only
under its own name; so a request sends a checked file of its own name unless the object of the
file was freed.
-/

namespace OsLabs
namespace AccessChecks

open CacheModel CacheInvariant CacheMembers ServerModel ServedFiles RequestModel RequestClosing
open FileOwnership Transition

variable {requests : File → Request} {maxCacheSize : BitVec 32} {s s' : State} {w : Worker}

/-- The name does not start with `/`, has no `..`, and does not end in `.c` or `.h`. -/
def Served (name : FileName) : Prop :=
  name.1.head? ≠ some 47 ∧ ¬ [46,46] <:+: name.1 ∧ ¬ [46,99] <:+ name.1 ∧ ¬ [46,104] <:+ name.1

/-- A suffix with one dot, in front, is what `strrchr` returns. -/
theorem strrchr_of_suffix {c : BitVec 8} {l : List (BitVec 8)} (hc : c ≠ 46) (h : [46,c] <:+ l) :
    strrchr 46 l = some [46,c] := by
  obtain ⟨pre,rfl⟩ := h
  induction pre with
  | nil =>
    have hne : ¬ c = 46#8 := hc
    simp [strrchr,hne]
  | cons x pre ih => rw [List.cons_append,strrchr,ih,Option.some_or]

theorem served_of_readfile {name : FileName} {sbuf : FileStat} {size : BitVec 32}
    (h : requestReadfile name sbuf = .ok size) : Served name := by
  unfold requestReadfile at h
  split at h
  · cases h
  · rename_i hhead
    split at h
    · cases h
    · rename_i hdots
      split at h
      · cases h
      · rename_i hext
        obtain ⟨hc,hh⟩ := not_or.mp hext
        exact ⟨hhead,hdots,fun hs => hc (strrchr_of_suffix (by decide) hs),
          fun hs => hh (strrchr_of_suffix (by decide) hs)⟩

/-! ### Names on their way -/

/-- What a worker that serves the request `n` has in its hands. -/
def Good (requests : File → Request) (n : File) : Pc → Prop
  | .idle | .signalling _ => True
  | .requested data | .missed data => data = n
  | .read data | .evicting data _ _ => data = n ∧ Served (nameOf requests data)
  | .chosen data | .sending data | .sent data =>
    nameOf requests data = nameOf requests n ∧ Served (nameOf requests data)

/-- The request sends a file of its own name that was checked. -/
def SendsOwn (requests : File → Request) (n data : File) : Prop :=
  nameOf requests data = nameOf requests n ∧ Served (nameOf requests data)

structure Checked (requests : File → Request) (s : State) : Prop where
  workers : ∀ w, Good requests (s.request w) (s.server.workers w)
  table : ∀ f ∈ table s.server.cache, Served (nameOf requests f)
  sent : ∀ n data, .sent n (some data) ∈ s.log → SendsOwn requests n data

/-- The part of a step that the worker itself sees. -/
structure Passes (requests : File → Request) (s : State) (w : Worker) (s' : State) : Prop where
  worker : Good requests (s'.request w) (s'.server.workers w)
  table : ∀ f ∈ CacheInvariant.table s'.server.cache, Served (nameOf requests f)
  sent : ∀ n data, .sent n (some data) ∈ s'.log →
    .sent n (some data) ∈ s.log ∨ SendsOwn requests n data

theorem Checked.passes {fails : Prop} (h : Checked requests s) (ht : Turn fails s w s')
    (hp : Passes requests s w s') : Checked requests s' where
  workers v := by
    by_cases hv : v = w
    · exact hv ▸ hp.worker
    · rw [ht.request v (.inl hv),ht.others v hv]
      exact h.workers v
  table := hp.table
  sent n data hm := (hp.sent n data hm).elim (h.sent n data) id

section Steps

variable {data : File} {events : List Event} {t : Server}

theorem passes_emit (hworker : Good requests (s.request w) (t.workers w))
    (htable : ∀ f ∈ table t.cache, Served (nameOf requests f))
    (hsent : ∀ n data, .sent n (some data) ∈ events → SendsOwn requests n data) :
    Passes requests s w (s.emit events t) :=
  ⟨hworker,htable,fun n data hm => (List.mem_append.mp hm).imp_right (hsent n data)⟩

theorem startRequest_passes {pc : Pc} (h : Checked requests s) (hw : s.server.workers w = .idle)
    (hpc : pc = .requested s.server.nextFile ∨ pc = .missed s.server.nextFile) :
    Passes requests s w (startRequest requests w pc s) := by
  unfold startRequest
  dsimp only
  cases requestInit (requests s.server.nextFile) with
  | error e =>
    refine passes_emit ?_ h.table ?_
    · change Good requests (s.request w) (s.server.workers w)
      rw [hw]
      trivial
    · simp [fileDataInit,requestDestroy,fileDataFree]
  | ok name =>
    refine ⟨?_,h.table,fun n d hm => (List.mem_append.mp hm).imp_right fun hm => ?_⟩
    · change Good requests (Function.update s.request w s.server.nextFile w)
        (Function.update s.server.workers w pc w)
      rw [Function.update_self,Function.update_self]
      rcases hpc with rfl | rfl <;> rfl
    · simp [fileDataInit] at hm

theorem lookupEvents_sent {c : Cache} (n d : File) :
    .sent n (some d) ∉ lookupEvents requests data c := by
  unfold lookupEvents
  split <;> simp

/-- A file that is found has the name of the request, and its name was checked. -/
theorem good_of_hit (h : Checked requests s) (hcore : Core (fileData requests) s.server)
    (hn : s.server.cacheAccess = none) {n file : File} {l : List File}
    (hp : s.server.cache.lruPolicy.Perm l) (hf : file ∈ l)
    (hname : sameName (fileData requests) file n = true) :
    Good requests n (.chosen file) := by
  refine ⟨of_decide_eq_true hname,h.table file ?_⟩
  exact (hcore.access.ready hn).mem_table (hp.mem_iff.mpr hf)

theorem good_of_left (h : Good requests (s.request w) (s.server.workers w))
    (hdata : data = s.request w) (hserved : Served (nameOf requests data))
    (hleft : Left s.server w data t) : Good requests (s.request w) (t.workers w) := by
  cases hleft with
  | inserted hw => rw [hw]; exact ⟨by rw [hdata],hserved⟩
  | waits _ _ hw => rw [hw]; exact ⟨hdata,hserved⟩
  | crashed hw => rw [hw]; exact h

/-- The files that a step brings into the cache were checked. -/
theorem table_of_frame (h : Checked requests s)
    (hf : Frame (fileData requests) s.server w s'.server)
    (hserved : ∀ n, owns (s.server.workers w) = some n → Served (nameOf requests n)) :
    ∀ f ∈ table s'.server.cache, Served (nameOf requests f) := by
  intro f hm
  rcases (hf.cached f hm).2 with hm | ⟨ho,-⟩
  · exact h.table f hm
  · exact hserved f ho

theorem cachedStep_passes (h : Checked requests s) (hcore : Core (fileData requests) s.server)
    (hs : cachedStep requests w s = some s') : Passes requests s w s' := by
  have hframe := (cachedStep_frame hcore hs).1
  have hgood := h.workers w
  unfold cachedStep at hs
  dsimp only at hs
  split at hs
  · rename_i hw
    obtain rfl := Option.some.inj hs
    exact startRequest_passes h hw (.inl rfl)
  · rename_i data hw
    obtain ⟨t,hst,rfl⟩ := Option.map_eq_some_iff.mp hs
    simp only [runWorker,hw] at hst
    obtain ⟨hn,hst⟩ := Option.ite_none_right_eq_some.mp hst
    obtain rfl := Option.some.inj hst
    rw [hw] at hgood
    obtain rfl : data = s.request w := hgood
    unfold firstSection
    cases hlisted : listed (fileData requests) (s.request w) s.server.cache.lruPolicy with
    | true =>
      obtain ⟨file,l,hl,hp,hf,hname⟩ := lookupFile_hit hlisted
      rw [hl]
      refine passes_emit ?_ h.table fun n d hm => absurd hm (lookupEvents_sent n d)
      rw [workers_setWorker]
      exact good_of_hit h hcore hn hp hf hname
    | false =>
      rw [lookupFile_miss hlisted]
      refine passes_emit ?_ h.table fun n d hm => absurd hm (lookupEvents_sent n d)
      rw [workers_setWorker]
      rfl
  · rename_i data hw
    rw [hw] at hgood
    obtain rfl : data = s.request w := hgood
    cases hr : readOf requests (s.request w) with
    | error e =>
      rw [hr] at hs
      obtain ⟨t,hst,rfl⟩ := Option.map_eq_some_iff.mp hs
      simp only [failWorker,hw] at hst
      obtain rfl := Option.some.inj hst
      refine passes_emit ?_ h.table ?_
      · rw [workers_setWorker]
        trivial
      · simp [requestDestroy,fileDataFree]
    | ok size =>
      rw [hr] at hs
      obtain ⟨t,hst,rfl⟩ := Option.map_eq_some_iff.mp hs
      simp only [runWorker,hw] at hst
      obtain rfl := Option.some.inj hst
      refine passes_emit ?_ h.table ?_
      · rw [workers_setWorker]
        exact ⟨rfl,served_of_readfile hr⟩
      · unfold allocateBuf
        split <;> simp
  · rename_i data hw
    rw [hw] at hgood
    obtain ⟨rfl,hserved⟩ : data = s.request w ∧ Served (nameOf requests data) := hgood
    obtain ⟨t,hst,rfl⟩ := Option.map_eq_some_iff.mp hs
    simp only [runWorker,hw] at hst
    obtain ⟨hn,hst⟩ := Option.ite_none_right_eq_some.mp hst
    obtain rfl := Option.some.inj hst
    have htable := table_of_frame h hframe fun n ho => by
      rw [hw] at ho
      obtain rfl := Option.some.inj ho
      exact hserved
    refine passes_emit ?_ htable fun n d hm => absurd hm (lookupEvents_sent n d)
    cases hlisted : listed (fileData requests) (s.request w) s.server.cache.lruPolicy with
    | true =>
      obtain ⟨file,l,hl,hp,hf,hname⟩ := lookupFile_hit hlisted
      unfold secondSection
      rw [hl]
      dsimp only
      rw [workers_setWorker]
      exact good_of_hit h hcore hn hp hf hname
    | false =>
      cases hsize : s.server.cache.maxSize.slt (fileData requests (s.request w)).fileSize with
      | false =>
        exact good_of_left (h.workers w) rfl hserved (secondSection_left hcore hn hw hlisted hsize)
      | true =>
        rw [secondSection_tooLarge hlisted hsize,workers_setWorker]
        exact ⟨rfl,hserved⟩
  · rename_i data elem inFlightFile hw
    rw [hw] at hgood
    obtain ⟨rfl,hserved⟩ : data = s.request w ∧ Served (nameOf requests data) := hgood
    obtain ⟨t,hst,rfl⟩ := Option.map_eq_some_iff.mp hs
    simp only [runWorker,hw] at hst
    obtain rfl := Option.some.inj hst
    have htable := table_of_frame h hframe fun n ho => by
      rw [hw] at ho
      obtain rfl := Option.some.inj ho
      exact hserved
    exact passes_emit (good_of_left (h.workers w) rfl hserved (afterWait_left hcore hw)) htable
      fun _ _ hm => by cases hm
  · rename_i data hw
    rw [hw] at hgood
    split at hs
    · obtain rfl := Option.some.inj hs
      exact passes_emit (h.workers w) h.table (by simp)
    · obtain ⟨t,hst,rfl⟩ := Option.map_eq_some_iff.mp hs
      simp only [runWorker,hw] at hst
      obtain rfl := Option.some.inj hst
      exact passes_emit (by rw [workers_setWorker]; exact hgood) h.table fun _ _ hm => by cases hm
  · rename_i data hw
    rw [hw] at hgood
    split at hs
    · obtain rfl := Option.some.inj hs
      exact passes_emit (h.workers w) h.table (by simp)
    · obtain ⟨t,hst,rfl⟩ := Option.map_eq_some_iff.mp hs
      simp only [runWorker,hw] at hst
      obtain rfl := Option.some.inj hst
      refine passes_emit (by rw [workers_setWorker]; exact hgood) h.table fun n d hm => ?_
      obtain ⟨rfl,he⟩ := Event.sent.inj (List.mem_singleton.mp hm)
      obtain rfl := Option.some.inj he
      exact hgood
  · rename_i data hw
    split at hs
    · obtain rfl := Option.some.inj hs
      exact passes_emit (h.workers w) h.table fun _ _ hm => by cases hm
    · obtain ⟨t,hst,rfl⟩ := Option.map_eq_some_iff.mp hs
      simp only [runWorker,hw] at hst
      split at hst
      · obtain rfl := Option.some.inj hst
        exact passes_emit (h.workers w) h.table fun _ _ hm => by cases hm
      · obtain rfl := Option.some.inj hst
        exact passes_emit (by rw [workers_setWorker]; trivial) h.table fun _ _ hm => by cases hm
  · rename_i foundFile hw
    obtain ⟨t,hst,rfl⟩ := Option.map_eq_some_iff.mp hs
    have hsent : ∀ p : Prop, ∀ _ : Decidable p, ∀ n d, .sent n (some d) ∈ (if p then
        requestDestroy (s.request w) ++ [.returned (s.request w)] else []) →
          SendsOwn requests n d := by
      intro p _ n d hm
      split at hm <;> simp [requestDestroy] at hm
    simp only [runWorker,hw] at hst
    split at hst
    · obtain rfl := Option.some.inj hst
      exact passes_emit (h.workers w) h.table (hsent _ _)
    · obtain rfl := Option.some.inj hst
      exact passes_emit (by rw [workers_setWorker]; trivial) h.table (hsent _ _)

theorem plainStep_passes (h : Checked requests s) (hs : plainStep requests w s = some s') :
    Passes requests s w s' := by
  have hgood := h.workers w
  unfold plainStep at hs
  dsimp only at hs
  split at hs
  · rename_i hw
    obtain rfl := Option.some.inj hs
    exact startRequest_passes h hw (.inr rfl)
  · rename_i data hw
    rw [hw] at hgood
    obtain rfl : data = s.request w := hgood
    cases hr : readOf requests (s.request w) with
    | error e =>
      rw [hr] at hs
      obtain rfl := Option.some.inj hs
      refine passes_emit (by rw [workers_setWorker]; trivial) h.table ?_
      simp [requestDestroy,fileDataFree]
    | ok size =>
      rw [hr] at hs
      obtain rfl := Option.some.inj hs
      refine passes_emit ?_ h.table ?_
      · rw [workers_setWorker]
        exact ⟨rfl,served_of_readfile hr⟩
      · unfold allocateBuf
        split <;> simp
  · rename_i data hw
    rw [hw] at hgood
    obtain rfl := Option.some.inj hs
    refine passes_emit (by rw [workers_setWorker]; trivial) h.table fun n d hm => ?_
    have hsent : (.sent n (some d) : Event) = .sent (s.request w) (some data) := by
      unfold fileDataFree at hm
      split at hm <;> simpa [requestDestroy] using hm
    obtain ⟨rfl,he⟩ := Event.sent.inj hsent
    obtain rfl := Option.some.inj he
    exact hgood
  · cases hs

theorem Checked.step (h : Checked requests s) (hl : Ledger requests (hasCache maxCacheSize) s)
    (hs : RequestModel.step requests maxCacheSize s w = some s') : Checked requests s' := by
  refine h.passes (step_turn hs) ?_
  have hcore := hl.core
  obtain ⟨-,hs⟩ := Option.ite_none_left_eq_some.mp hs
  cases hc : hasCache maxCacheSize with
  | true =>
    rw [if_pos hc] at hs
    exact cachedStep_passes h (hcore hc) hs
  | false =>
    rw [if_neg (by rw [hc]; simp)] at hs
    exact plainStep_passes h hs

end Steps

/-! ### Objects that were freed -/

theorem isFreed_iff {c : Cache} {data : File} : isFreed c data = true ↔ Freed c data := by
  simp [isFreed,Freed]

/-- Only a worker that serves a freed object sends one. -/
theorem cachedStep_stray (hs : cachedStep requests w s = some s') {n : File}
    (hm : .sent n none ∈ s'.log) : .sent n none ∈ s.log ∨
      ∃ data, serves (s.server.workers w) = some data ∧ Freed s.server.cache data := by
  have hemit : ∀ {events : List Event} {t : Server}, (∀ n, .sent n none ∉ events) →
      s' = s.emit events t → .sent n none ∈ s.log := by
    rintro events t hev rfl
    exact (List.mem_append.mp hm).resolve_right (hev n)
  have hgo : ∀ {events : List Event} {o : Option Server}, (∀ n, .sent n none ∉ events) →
      o.map (s.emit events) = some s' → .sent n none ∈ s.log := by
    intro events o hev ho
    obtain ⟨t,-,rfl⟩ := Option.map_eq_some_iff.mp ho
    exact hemit hev rfl
  have hlookup : ∀ data c, ∀ n, .sent n none ∉ lookupEvents requests data c := by
    intro data c n
    unfold lookupEvents
    split <;> simp
  unfold cachedStep at hs
  dsimp only at hs
  split at hs
  · left
    obtain rfl := Option.some.inj hs
    unfold startRequest at hm
    dsimp only at hm
    split at hm <;>
      exact (List.mem_append.mp hm).resolve_right (by simp [fileDataInit,requestDestroy,fileDataFree])
  · exact .inl (hgo (hlookup _ _) hs)
  · split at hs
    · exact .inl (hgo (by simp [requestDestroy,fileDataFree]) hs)
    · refine .inl (hgo (fun n => ?_) hs)
      unfold allocateBuf
      split <;> simp
  · exact .inl (hgo (hlookup _ _) hs)
  · exact .inl (hgo (by simp) hs)
  · rename_i data hw
    split at hs
    · rename_i hfreed
      exact .inr ⟨data,by rw [hw]; rfl,isFreed_iff.mp hfreed⟩
    · exact .inl (hgo (by simp) hs)
  · rename_i data hw
    split at hs
    · rename_i hfreed
      exact .inr ⟨data,by rw [hw]; rfl,isFreed_iff.mp hfreed⟩
    · exact .inl (hgo (by simp) hs)
  · split at hs
    · exact .inl (hemit (by simp) (Option.some.inj hs).symm)
    · exact .inl (hgo (by simp) hs)
  · obtain ⟨t,-,he⟩ := Option.map_eq_some_iff.mp hs
    refine .inl (hemit (fun n => ?_) he.symm)
    split <;> simp [requestDestroy]

theorem plainStep_stray (hs : plainStep requests w s = some s') {n : File}
    (hm : .sent n none ∈ s'.log) : .sent n none ∈ s.log := by
  unfold plainStep at hs
  dsimp only at hs
  split at hs
  · obtain rfl := Option.some.inj hs
    unfold startRequest at hm
    dsimp only at hm
    split at hm <;>
      exact (List.mem_append.mp hm).resolve_right (by simp [fileDataInit,requestDestroy,fileDataFree])
  · split at hs
    · obtain rfl := Option.some.inj hs
      exact (List.mem_append.mp hm).resolve_right (by simp [requestDestroy,fileDataFree])
    · obtain rfl := Option.some.inj hs
      refine (List.mem_append.mp hm).resolve_right ?_
      unfold allocateBuf
      split <;> simp
  · obtain rfl := Option.some.inj hs
    refine (List.mem_append.mp hm).resolve_right ?_
    unfold fileDataFree
    split <;> simp [requestDestroy]
  · cases hs

/-- The step evicts no file that a worker has chosen and not announced. -/
def KeepsChosen (requests : File → Request) (s : State) (w : Worker) : Prop :=
  Undisturbed (fileData requests) s.server (.run w)

/-- No object that was freed has been sent, and none is served. -/
structure Live (requests : File → Request) (cached : Bool) (s : State) : Prop where
  inv : cached = true → Inv (fileData requests) s.server
  sent : ∀ n, .sent n none ∉ s.log

theorem Live.step (h : Live requests (hasCache maxCacheSize) s) (hok : KeepsChosen requests s w)
    (hs : step requests maxCacheSize s w = some s') : Live requests (hasCache maxCacheSize) s' := by
  obtain ⟨-,hs⟩ := Option.ite_none_left_eq_some.mp hs
  cases hc : hasCache maxCacheSize with
  | true =>
    rw [if_pos hc] at hs
    have hinv := h.inv hc
    refine ⟨fun _ => hinv.frame (cachedStep_frame hinv.toCore hs).1 fun v f hf => ?_,fun n hm => ?_⟩
    · exact hinv.toCore.unserved hf (hok w rfl f hf v)
    · rcases cachedStep_stray hs hm with hm | ⟨data,hserves,hfreed⟩
      · exact h.sent n hm
      · exact hinv.safe w data hserves hfreed
  | false =>
    rw [if_neg (by rw [hc]; simp)] at hs
    exact ⟨fun he => Bool.noConfusion he,fun n hm => h.sent n (plainStep_stray hs hm)⟩

/-- Two files that do not fit into the cache together. -/
def twoFiles (n : File) : Request :=
  ⟨⟨[71,69,84,32,47]++List.replicate (n+1) 122,by simp⟩,emptyString,emptyString,
    .file (if n = 0 then 3000 else 2000)⟩

end AccessChecks
end OsLabs

import OsLabs.CacheMembers
import OsLabs.CacheRefinement

/-!
# The sections of a request

The model of `do_server_request` with the sections of the wait of `remove_from_cache`: the
evictor finds an entry under `inflight_access`, waits on its `file_cv` while it holds
`cache_access`, and goes on when the entry is signalled. In the runs that evict no chosen
file every entry is linked, or with the worker that signals it, or signalled, and it is
freed behind its signal.
-/

namespace OsLabs
namespace RequestSections

open CacheModel CacheInvariant ServerModel ServedFiles CacheMembers

/-- Where the worker that waits in `remove_from_cache` stands. -/
inductive Wait
  /-- `inflight_access` is released, and the entry not locked -/
  | found
  /-- in `pthread_cond_wait` -/
  | waiting
  /-- the wait is over, and the entry not deallocated -/
  | woken
  deriving DecidableEq

structure State where
  server : Server
  wait : Wait
  /-- the entries whose signal has been sent -/
  signalled : List Entry

variable (files : File → FileData)

/-- The holder of `cache_access` waits for this entry. -/
def waitsFor (s : Server) (entry : Entry) : Bool :=
  match s.cacheAccess with
  | none => false
  | some w =>
    match s.workers w with
    | .evicting _ _ inFlightFile => inFlightFile = entry
    | _ => false

/-- The worker's next section. `pthread_cond_wait` returns when the entry is signalled; that it may
return without a signal is left to `EvictionWait`. -/
def runWorker (w : Worker) (s : State) : Option State :=
  match s.server.workers w with
  | .evicting _ _ inFlightFile =>
    match s.wait with
    | .found =>
      if inFlightFile ∈ s.server.freedEntries then
        some { s with server := { s.server with status := .undefined } }
      else some { s with wait := .waiting }
    | .waiting => none
    | .woken => (ServerModel.runWorker files w s.server).map fun t => { s with server := t, wait := .found }
  | .signalling foundFile =>
    (ServerModel.runWorker files w s.server).map fun t =>
      { server := t
        wait := if s.wait = .waiting ∧ waitsFor s.server foundFile = true then .woken else s.wait
        signalled := foundFile::s.signalled }
  | _ => (ServerModel.runWorker files w s.server).map fun t => { s with server := t }

/-- The worker that the action is about. -/
def worker : ServerModel.Action → Worker
  | .run w | .fail w => w

/-- `n` threads run `do_server_request`. -/
def step (n : ℕ) (s : State) (a : ServerModel.Action) : Option State :=
  if s.server.status ≠ .running ∨ n ≤ worker a then none
  else match a with
  | .run w => runWorker files w s
  | .fail w => (failWorker w s.server).map fun t => { s with server := t }

def init (maxCacheSize : BitVec 32) : State := ⟨serverInit maxCacheSize,.found,[]⟩

/-! ### What a section changes -/

/-- Moves of a worker that concern nobody else. -/
inductive Private : Pc → Pc → Prop
  | miss (data : File) : Private (.requested data) (.missed data)
  | hit (data file : File) : Private (.requested data) (.chosen file)
  | read (data : File) : Private (.missed data) (.read data)
  | unread (data : File) : Private (.missed data) .idle
  | cached (data file : File) : Private (.read data) (.chosen file)
  | send (data : File) : Private (.sending data) (.sent data)

/-- The section is under `cache_access`. -/
def locks : Pc → Prop
  | .requested _ | .read _ => True
  | _ => False

/-- A section that goes well. -/
inductive Turn (s : Server) (w : Worker) : Server → Prop
  | refuses : s.workers w = .idle → Turn s w { s with nextFile := s.nextFile+1 }
  | starts : s.workers w = .idle →
      Turn s w ({ s with nextFile := s.nextFile+1 }.setWorker w (.requested s.nextFile))
  | moves (c : Cache) (pc : Pc) : Private (s.workers w) pc → (locks (s.workers w) → s.cacheAccess = none) →
      Turn s w ({ s with cache := c }.setWorker w pc)
  | waits (c : Cache) (data elem : File) (entry : Entry) : s.workers w = .read data →
      s.cacheAccess = none → entry ∈ s.inflightQ →
      Turn s w ({ s with cache := c, cacheAccess := some w }.setWorker w (.evicting data elem entry))
  | resumes (c : Cache) (data elem : File) (entry : Entry) : s.workers w = .evicting data elem entry →
      Turn s w ({ s with
        cache := c, cacheAccess := none, freedEntries := entry::s.freedEntries }.setWorker w (.chosen data))
  | waitsAgain (c : Cache) (data elem elem' : File) (entry entry' : Entry) :
      s.workers w = .evicting data elem entry → entry' ∈ s.inflightQ →
      Turn s w ({ s with
        cache := c, cacheAccess := some w, freedEntries := entry::s.freedEntries }.setWorker w
          (.evicting data elem' entry'))
  | announces (data : File) : s.workers w = .chosen data →
      Turn s w ((addToQueue data s).setWorker w (.sending data))
  | withdraws (data : File) (foundFile : Entry) (q : List Entry) : s.workers w = .sent data →
      s.inflightQ.Perm (foundFile::q) →
      Turn s w ({ s with inflightQ := q }.setWorker w (.signalling foundFile))
  | signals (foundFile : Entry) : s.workers w = .signalling foundFile → Turn s w (s.setWorker w .idle)

/-- The cache can be used by the next one who gets `cache_access`. -/
def Usable (s : Server) : Prop := s.cacheAccess = none → Represents files s.cache

variable {files} {s s' : Server} {w : Worker} {data elem : File}

theorem lookupFile_turn (hu : Usable files s) (hn : s.cacheAccess = none) (data : File) :
    (lookupFile files data s.cache = (none,s.cache) ∧ listed files data s.cache.lruPolicy = false) ∨
      ∃ file c, lookupFile files data s.cache = (some (some file),c) ∧ Represents files c := by
  cases hlisted : listed files data s.cache.lruPolicy with
  | false => exact .inl ⟨lookupFile_miss hlisted,rfl⟩
  | true =>
    obtain ⟨file,l,hl,hp,-,-⟩ := lookupFile_hit hlisted
    have hh := Holds.perm (hu hn) hp
    exact .inr ⟨file,_,hl,hh.positive,hh.same,hh.once,hh.names,hh.chains,hh.total,hh.found⟩

/-- `cache_insert` returns, or waits for an entry that is in flight. -/
theorem leaveInsert_turn {p : Progress} {vs : List File} {b : Cache} {t : Server}
    {freedEntries : List Entry} (ht : t = { s with freedEntries := freedEntries }) (w : Worker)
    (hc : Cleared files s.inflightQ data b vs p) :
    (∃ c, Represents files c ∧ leaveInsert files w data p t =
      { s with cache := c, cacheAccess := none, freedEntries := freedEntries }.setWorker w (.chosen data)) ∨
    ∃ c elem entry, entry ∈ s.inflightQ ∧ leaveInsert files w data p t =
      { s with cache := c, cacheAccess := some w, freedEntries := freedEntries }.setWorker w
        (.evicting data elem entry) := by
  subst ht
  cases hc with
  | returns inserted c' rest _ hrep _ _ => exact .inl ⟨c',hrep,rfl⟩
  | waits elem c' entry _ _ _ hq =>
    refine .inr ⟨c',elem,entry,List.mem_of_find?_eq_some hq,?_⟩
    simp only [leaveInsert,hq]

/-- `request_init` has filled in the name. -/
theorem firstSection_turn (hu : Usable files s) (hn : s.cacheAccess = none)
    (hw : s.workers w = .requested data) :
    Turn s w (firstSection files w data s) ∧ Usable files (firstSection files w data s) := by
  unfold firstSection
  rcases lookupFile_turn hu hn data with ⟨hl,-⟩ | ⟨file,c,hl,hrep⟩ <;> rw [hl]
  · exact ⟨.moves s.cache (.missed data) (hw ▸ .miss data) fun _ => hn,hu⟩
  · exact ⟨.moves c (.chosen file) (hw ▸ .hit data file) fun _ => hn,fun _ => hrep⟩

theorem secondSection_turn (hu : Usable files s) (hn : s.cacheAccess = none)
    (hw : s.workers w = .read data) :
    Turn s w (secondSection files w data s) ∧ Usable files (secondSection files w data s) := by
  unfold secondSection
  rcases lookupFile_turn hu hn data with ⟨hl,hlisted⟩ | ⟨file,c,hl,hrep⟩ <;> rw [hl]
  · rcases leaveInsert_turn (t := s) rfl w (secondSection_cleared (hu hn) hw hlisted) with
      ⟨c,hrep,he⟩ | ⟨c,elem,entry,hmem,he⟩ <;> dsimp only
    · rw [he,← hn]
      exact ⟨.moves c (.chosen data) (hw ▸ .cached data data) fun _ => hn,fun _ => hrep⟩
    · rw [he]
      exact ⟨.waits c data elem entry hw hn hmem,fun h => by cases h⟩
  · exact ⟨.moves c (.chosen file) (hw ▸ .cached data file) fun _ => hn,fun _ => hrep⟩

theorem afterWait_turn {inFlightFile : Entry} (h : Core files s)
    (hw : s.workers w = .evicting data elem inFlightFile) (hq : inFlightFile ∉ s.inflightQ) :
    Turn s w (afterWait files w data elem inFlightFile s) ∧
      Usable files (afterWait files w data elem inFlightFile s) := by
  unfold afterWait
  rw [if_neg hq]
  rcases leaveInsert_turn rfl w (afterWait_cleared (h.access.removing hw) hw hq) with
    ⟨c,hrep,he⟩ | ⟨c,elem',entry',hmem,he⟩
  · rw [he]
    exact ⟨.resumes c data elem inFlightFile hw,fun _ => hrep⟩
  · rw [he]
    exact ⟨.waitsAgain c data elem elem' inFlightFile entry' hw hmem,fun h => by cases h⟩

/-- The step of a worker whose entries are as they should be. -/
theorem runWorker_turn (h : Core files s) (hu : Usable files s)
    (hgone : ∀ data elem entry, s.workers w = .evicting data elem entry → entry ∉ s.inflightQ)
    (hkept : ∀ entry, s.workers w = .signalling entry → entry ∉ s.freedEntries)
    (hst : ServerModel.runWorker files w s = some s') : Turn s w s' ∧ Usable files s' := by
  unfold ServerModel.runWorker at hst
  split at hst
  · rename_i hw
    obtain rfl := Option.some.inj hst
    exact ⟨.starts hw,hu⟩
  · rename_i data hw
    obtain ⟨hn,hst⟩ := Option.ite_none_right_eq_some.mp hst
    obtain rfl := Option.some.inj hst
    exact firstSection_turn hu hn hw
  · rename_i data hw
    obtain rfl := Option.some.inj hst
    exact ⟨.moves s.cache (.read data) (hw ▸ .read data) fun hl => (by rw [hw] at hl; cases hl),hu⟩
  · rename_i data hw
    obtain ⟨hn,hst⟩ := Option.ite_none_right_eq_some.mp hst
    obtain rfl := Option.some.inj hst
    exact secondSection_turn hu hn hw
  · rename_i data elem inFlightFile hw
    obtain rfl := Option.some.inj hst
    exact afterWait_turn h hw (hgone data elem inFlightFile hw)
  · rename_i data hw
    obtain rfl := Option.some.inj hst
    exact ⟨.announces data hw,hu⟩
  · rename_i data hw
    obtain rfl := Option.some.inj hst
    exact ⟨.moves s.cache (.sent data) (hw ▸ .send data) fun hl => (by rw [hw] at hl; cases hl),hu⟩
  · rename_i data hw
    cases hq : removeFromQueue files data s.inflightQ with
    | none =>
      have hne := h.announced.inFlight (w := w) (by rw [hw]; rfl)
      exact absurd (Option.map_eq_none_iff.mp hq) hne
    | some r =>
      obtain ⟨e,he,hr⟩ := Option.map_eq_some_iff.mp hq
      rw [hq] at hst
      obtain rfl := Option.some.inj hst
      subst hr
      exact ⟨.withdraws data e _ hw (LinkedQueue.perm_eraseP he),hu⟩
  · rename_i foundFile hw
    rw [if_neg (hkept foundFile hw)] at hst
    obtain rfl := Option.some.inj hst
    exact ⟨.signals foundFile hw,hu⟩

theorem failWorker_turn (hu : Usable files s) (hst : failWorker w s = some s') :
    Turn s w s' ∧ Usable files s' := by
  unfold failWorker at hst
  split at hst
  · rename_i hw
    obtain rfl := Option.some.inj hst
    exact ⟨.refuses hw,hu⟩
  · rename_i data hw
    obtain rfl := Option.some.inj hst
    exact ⟨.moves s.cache .idle (hw ▸ .unread data) fun hl => (by rw [hw] at hl; cases hl),hu⟩
  · cases hst

/-! ### Sections with the wait -/

/-- The worker waits in `remove_from_cache` for the entry. -/
def Evicts (s : Server) (w : Worker) (entry : Entry) : Prop :=
  ∃ data elem, s.workers w = .evicting data elem entry

/-- What the next section of a worker does. -/
inductive Section (s : State) (w : Worker) : State → Prop
  | locks (entry : Entry) : Evicts s.server w entry → s.wait = .found →
      Section s w { s with wait := .waiting }
  | resumes (entry : Entry) (t : Server) : Evicts s.server w entry → s.wait = .woken →
      Turn s.server w t → Section s w { s with server := t, wait := .found }
  | signals (foundFile : Entry) : s.server.workers w = .signalling foundFile →
      Section s w
        { server := s.server.setWorker w .idle
          wait := if s.wait = .waiting ∧ waitsFor s.server foundFile = true then .woken else s.wait
          signalled := foundFile::s.signalled }
  | moves (t : Server) : (∀ entry, ¬ Evicts s.server w entry) →
      (∀ entry, s.server.workers w ≠ .signalling entry) → Turn s.server w t →
      Section s w { s with server := t }

/-- Where the entries are: linked, with a worker that signals them, or signalled. The evictor waits
for one that was not freed. -/
structure Entries (s : State) : Prop where
  fresh : ∀ e ∈ s.server.inflightQ, e.id < s.server.nextEntry
  once : s.server.inflightQ.Nodup
  signalling : ∀ w e, s.server.workers w = .signalling e →
    e.id < s.server.nextEntry ∧ e ∉ s.server.inflightQ ∧ e ∉ s.signalled
  distinct : ∀ w v e, s.server.workers w = .signalling e → s.server.workers v = .signalling e → w = v
  signalled : ∀ e ∈ s.signalled, e.id < s.server.nextEntry ∧ e ∉ s.server.inflightQ
  freed : ∀ e ∈ s.server.freedEntries, e ∈ s.signalled
  kept : ∀ w e, Evicts s.server w e → e ∉ s.server.freedEntries
  woken : ∀ w e, Evicts s.server w e → s.wait = .woken → e ∈ s.signalled
  place : ∀ w e, Evicts s.server w e →
    e ∈ s.server.inflightQ ∨ (∃ v, s.server.workers v = .signalling e) ∨ e ∈ s.signalled

/-- What holds in the runs that evict no chosen file. -/
structure Sound (files : File → FileData) (n : ℕ) (s : State) : Prop extends Entries s where
  running : s.server.status = .running
  inv : Inv files s.server
  usable : Usable files s.server
  idle : ∀ w, n ≤ w → s.server.workers w = .idle
  free : s.server.cacheAccess = none → s.wait = .found

section sections

variable {n : ℕ} {s s' : State} {a : ServerModel.Action} {entry e : Entry} {pc : Pc} {t : Server}

theorem Sound.evictor_unique (h : Sound files n s) {v : Worker} (hw : Evicts s.server w entry)
    (hv : Evicts s.server v e) : w = v ∧ entry = e := by
  obtain ⟨data,elem,hw⟩ := hw
  obtain ⟨data',elem',hv⟩ := hv
  have hacc := h.inv.access.holder w data elem entry hw
  obtain rfl : w = v := Option.some.inj (hacc.symm.trans (h.inv.access.holder v data' elem' e hv))
  exact ⟨rfl,(Pc.evicting.inj (hw.symm.trans hv)).2.2⟩

theorem Sound.waitsFor_iff (h : Sound files n s) (hw : Evicts s.server w entry) :
    waitsFor s.server e = true ↔ entry = e := by
  obtain ⟨data,elem,hw⟩ := hw
  rw [waitsFor,h.inv.access.holder w data elem entry hw]
  simp [hw]

theorem Sound.lt (h : Sound files n s) (hw : s.server.workers w ≠ .idle) : w < n := by
  by_contra hn
  exact hw (h.idle w (not_lt.mp hn))

theorem Sound.nobody (h : Sound files n s) (hn : s.server.cacheAccess = none) (v : Worker) (e : Entry) :
    ¬ Evicts s.server v e := by
  rintro ⟨data,elem,hv⟩
  have hacc := h.inv.access.holder v data elem e hv
  rw [hn] at hacc
  cases hacc

theorem Turn.of_evicts (h : Turn s.server w t) (hw : Evicts s.server w entry) :
    (∃ c data, t = { s.server with
      cache := c, cacheAccess := none, freedEntries := entry::s.server.freedEntries }.setWorker w
        (.chosen data)) ∨
    ∃ c data elem e, e ∈ s.server.inflightQ ∧ t = { s.server with
      cache := c, cacheAccess := some w, freedEntries := entry::s.server.freedEntries }.setWorker w
        (.evicting data elem e) := by
  obtain ⟨data,elem,hw⟩ := hw
  cases h with
  | refuses hpc | starts hpc => rw [hw] at hpc; cases hpc
  | moves c pc hp => rw [hw] at hp; cases hp
  | waits c d el e hpc => rw [hw] at hpc; cases hpc
  | announces d hpc => rw [hw] at hpc; cases hpc
  | withdraws d e q hpc => rw [hw] at hpc; cases hpc
  | signals e hpc => rw [hw] at hpc; cases hpc
  | resumes c d el e hpc =>
    rw [(Pc.evicting.inj (hw.symm.trans hpc)).2.2]
    exact .inl ⟨c,d,rfl⟩
  | waitsAgain c d el el' e e' hpc hmem =>
    rw [(Pc.evicting.inj (hw.symm.trans hpc)).2.2]
    exact .inr ⟨c,d,el',e',hmem,rfl⟩

/-- The evictor of a woken wait waits for no linked entry. -/
theorem Entries.gone (h : Entries s) (hw : Evicts s.server w entry) (hwait : s.wait = .woken) :
    entry ∉ s.server.inflightQ := (h.signalled entry (h.woken w entry hw hwait)).2

theorem evicts_setWorker {v : Worker} : Evicts (t.setWorker w pc) v e ↔
    (v = w ∧ ∃ data elem, pc = .evicting data elem e) ∨ v ≠ w ∧ Evicts t v e := by
  unfold Evicts Server.setWorker
  by_cases hv : v = w
  · subst hv
    simp
  · simp [hv]

theorem signalling_setWorker {v : Worker} : (t.setWorker w pc).workers v = .signalling e ↔
    (v = w ∧ pc = .signalling e) ∨ v ≠ w ∧ t.workers v = .signalling e := by
  unfold Server.setWorker
  by_cases hv : v = w
  · subst hv
    simp
  · simp [hv]

/-- A worker that neither had an entry to signal nor has one now. -/
theorem signalling_moves {v : Worker} (hold : ∀ e, t.workers w ≠ .signalling e)
    (hnew : ∀ e, pc ≠ .signalling e) :
    (t.setWorker w pc).workers v = .signalling e ↔ t.workers v = .signalling e := by
  rw [signalling_setWorker]
  constructor
  · rintro (⟨-,he⟩ | ⟨-,hv⟩)
    · exact absurd he (hnew e)
    · exact hv
  · intro hv
    refine .inr ⟨?_,hv⟩
    rintro rfl
    exact hold e hv

/-- A worker that does not begin to wait. -/
theorem evicts_moves {v : Worker} (hnew : ∀ data elem e, pc ≠ .evicting data elem e)
    (hv : Evicts (t.setWorker w pc) v e) : Evicts t v e := by
  rcases evicts_setWorker.mp hv with ⟨-,data,elem,he⟩ | ⟨-,hv⟩
  · exact absurd he (hnew data elem e)
  · exact hv

theorem step_section (h : Sound files n s) (hst : step files n s a = some s') :
    worker a < n ∧ Section s (worker a) s' ∧ Usable files s'.server := by
  obtain ⟨hn,hst⟩ := Option.ite_none_left_eq_some.mp hst
  refine ⟨not_le.mp fun hle => hn (.inr hle),?_⟩
  cases a with
  | fail w =>
    obtain ⟨t,ht,rfl⟩ := Option.map_eq_some_iff.mp hst
    obtain ⟨hturn,hu⟩ := failWorker_turn h.usable ht
    refine ⟨.moves t ?_ ?_ hturn,hu⟩ <;> unfold failWorker at ht
    · rintro entry ⟨data,elem,hw⟩
      change s.server.workers w = _ at hw
      simp [hw] at ht
    · intro entry hw
      change s.server.workers w = _ at hw
      simp [hw] at ht
  | run w =>
    have hturn (t : Server) (hst : ServerModel.runWorker files w s.server = some t)
        (hgone : ∀ d el e, s.server.workers w = .evicting d el e → e ∉ s.server.inflightQ) :
        Turn s.server w t ∧ Usable files t :=
      runWorker_turn h.inv.toCore h.usable hgone
        (fun entry hw hf => (h.signalling w entry hw).2.2 (h.freed entry hf)) hst
    change runWorker files w s = some s' at hst
    unfold runWorker at hst
    split at hst
    · rename_i data elem entry hw
      have hevicts : Evicts s.server w entry := ⟨data,elem,hw⟩
      cases hwait : s.wait with
      | found =>
        rw [hwait] at hst
        dsimp only at hst
        rw [if_neg (h.kept w entry hevicts)] at hst
        obtain rfl := Option.some.inj hst
        exact ⟨.locks entry hevicts hwait,h.usable⟩
      | waiting =>
        rw [hwait] at hst
        cases hst
      | woken =>
        rw [hwait] at hst
        obtain ⟨t,ht,rfl⟩ := Option.map_eq_some_iff.mp hst
        obtain ⟨hturn,hu⟩ := hturn t ht fun d el e hd =>
          h.toEntries.gone ⟨d,el,hd⟩ hwait
        exact ⟨.resumes entry t hevicts hwait hturn,hu⟩
    · rename_i foundFile hw
      obtain ⟨t,ht,rfl⟩ := Option.map_eq_some_iff.mp hst
      rw [ServerModel.runWorker,hw] at ht
      dsimp only at ht
      rw [if_neg fun hf => (h.signalling w foundFile hw).2.2 (h.freed foundFile hf)] at ht
      obtain rfl := Option.some.inj ht
      exact ⟨.signals foundFile hw,h.usable⟩
    · rename_i hevicts hsignal
      obtain ⟨t,ht,rfl⟩ := Option.map_eq_some_iff.mp hst
      obtain ⟨hturn,hu⟩ := hturn t ht fun d el e hd => absurd hd (hevicts d el e)
      refine ⟨.moves t ?_ hsignal hturn,hu⟩
      rintro entry ⟨d,el,hd⟩
      exact hevicts d el entry hd

/-! ### The entries -/

/-- Nobody else's entry is touched, and no new one is waited for. -/
theorem Entries.keep (h : Entries s) (hq : t.inflightQ = s.server.inflightQ)
    (hf : t.freedEntries = s.server.freedEntries) (hn : t.nextEntry = s.server.nextEntry)
    (hsignal : ∀ v e, t.workers v = .signalling e ↔ s.server.workers v = .signalling e)
    (hevicts : ∀ v e, Evicts t v e → Evicts s.server v e) : Entries { s with server := t } where
  fresh := by rw [hq,hn]; exact h.fresh
  once := by rw [hq]; exact h.once
  signalling v e hv := by rw [hq,hn]; exact h.signalling v e ((hsignal v e).mp hv)
  distinct w v e hw hv := h.distinct w v e ((hsignal w e).mp hw) ((hsignal v e).mp hv)
  signalled := by rw [hq,hn]; exact h.signalled
  freed := by rw [hf]; exact h.freed
  kept v e hv := by rw [hf]; exact h.kept v e (hevicts v e hv)
  woken v e hv := h.woken v e (hevicts v e hv)
  place v e hv := by
    rw [hq]
    exact (h.place v e (hevicts v e hv)).imp_right (Or.imp_left fun ⟨u,hu⟩ => ⟨u,(hsignal u e).mpr hu⟩)

theorem Private.not_signalling {pc' : Pc} (h : Private pc pc') : pc' ≠ .signalling e := by
  cases h <;> simp

theorem Private.not_evicting {pc' : Pc} (h : Private pc pc') {data elem : File} :
    pc' ≠ .evicting data elem e := by
  cases h <;> simp

/-- A worker that begins to wait has found a linked entry. -/
theorem Entries.wait (h : Entries s) (c : Cache) {data elem : File} (hw : s.server.workers w = .read data)
    (hfree : ∀ v e, ¬ Evicts s.server v e) (hfound : s.wait = .found) (hmem : entry ∈ s.server.inflightQ) :
    Entries { s with
      server := { s.server with cache := c, cacheAccess := some w }.setWorker w
        (.evicting data elem entry) } := by
  have hsignal (v : Worker) (e : Entry) : ({ s.server with
      cache := c, cacheAccess := some w }.setWorker w (.evicting data elem entry)).workers v =
        .signalling e ↔ s.server.workers v = .signalling e :=
    signalling_moves (fun e => by simp [hw]) fun e => by simp
  have hevicts {v : Worker} {e : Entry} (hv : Evicts ({ s.server with
      cache := c, cacheAccess := some w }.setWorker w (.evicting data elem entry)) v e) : e = entry := by
    rcases evicts_setWorker.mp hv with ⟨-,d,el,he⟩ | ⟨-,hv⟩
    · exact (Pc.evicting.inj he).2.2.symm
    · exact absurd hv (hfree v e)
  have hnot : entry ∉ s.signalled := fun hm => (h.signalled entry hm).2 hmem
  refine ⟨h.fresh,h.once,fun v e hv => h.signalling v e ((hsignal v e).mp hv),
    fun u v e hu hv => h.distinct u v e ((hsignal u e).mp hu) ((hsignal v e).mp hv),h.signalled,h.freed,
    fun v e hv hf => ?_,fun v e _ hwoken => ?_,fun v e hv => ?_⟩
  · rw [hevicts hv] at hf
    exact hnot (h.freed entry hf)
  · rw [show s.wait = .woken from hwoken] at hfound
    cases hfound
  · rw [hevicts hv]
    exact .inl hmem

theorem Entries.announce (h : Entries s) {data : File} (hw : s.server.workers w = .chosen data) :
    Entries { s with server := (addToQueue data s.server).setWorker w (.sending data) } := by
  have hsignal (v : Worker) (e : Entry) : ((addToQueue data s.server).setWorker w
      (.sending data)).workers v = .signalling e ↔ s.server.workers v = .signalling e :=
    signalling_moves (fun e => by simp [hw,addToQueue]) fun e => by simp
  have hevicts (v : Worker) (e : Entry)
      (hv : Evicts ((addToQueue data s.server).setWorker w (.sending data)) v e) :
      Evicts s.server v e := evicts_moves (fun _ _ _ => by simp) hv
  have hold {e : Entry} (hid : e.id < s.server.nextEntry) (hnot : e ∉ s.server.inflightQ) :
      e.id < s.server.nextEntry+1 ∧ e ∉ s.server.inflightQ ++ [⟨s.server.nextEntry,data⟩] := by
    refine ⟨hid.trans (Nat.lt_succ_self _),fun hm => ?_⟩
    rcases List.mem_append.mp hm with hm | hm
    · exact hnot hm
    · rw [List.mem_singleton.mp hm] at hid
      exact absurd hid (lt_irrefl _)
  refine ⟨fun e he => ?_,?_,fun v e hv => ?_,
    fun u v e hu hv => h.distinct u v e ((hsignal u e).mp hu) ((hsignal v e).mp hv),fun e he => ?_,h.freed,
    fun v e hv => h.kept v e (hevicts v e hv),fun v e hv => h.woken v e (hevicts v e hv),fun v e hv => ?_⟩
  · rcases List.mem_append.mp he with he | he
    · exact (h.fresh e he).trans (Nat.lt_succ_self _)
    · rw [List.mem_singleton.mp he]
      exact Nat.lt_succ_self _
  · refine List.nodup_append.mpr ⟨h.once,List.nodup_singleton _,fun e he e' he' => ?_⟩
    rw [List.mem_singleton.mp he']
    rintro rfl
    exact absurd (h.fresh _ he) (lt_irrefl _)
  · obtain ⟨hid,hnot,hns⟩ := h.signalling v e ((hsignal v e).mp hv)
    obtain ⟨hid,hnot⟩ := hold hid hnot
    exact ⟨hid,hnot,hns⟩
  · obtain ⟨hid,hnot⟩ := h.signalled e he
    exact hold hid hnot
  · rcases h.place v e (hevicts v e hv) with hm | ⟨u,hu⟩ | hm
    · exact .inl (List.mem_append_left _ hm)
    · exact .inr (.inl ⟨u,(hsignal u e).mpr hu⟩)
    · exact .inr (.inr hm)

theorem Entries.withdraw (h : Entries s) {data : File} {q : List Entry}
    (hw : s.server.workers w = .sent data) (hp : s.server.inflightQ.Perm (entry::q)) :
    Entries { s with server := { s.server with inflightQ := q }.setWorker w (.signalling entry) } := by
  have hmem : entry ∈ s.server.inflightQ := hp.mem_iff.mpr List.mem_cons_self
  have hsub {e : Entry} (he : e ∈ q) : e ∈ s.server.inflightQ := hp.mem_iff.mpr (List.mem_cons_of_mem _ he)
  obtain ⟨hentry,honce⟩ := List.nodup_cons.mp (hp.nodup_iff.mp h.once)
  have hevicts (v : Worker) (e : Entry)
      (hv : Evicts ({ s.server with inflightQ := q }.setWorker w (.signalling entry)) v e) :
      Evicts s.server v e := evicts_moves (fun _ _ _ => by simp) hv
  have hsignal {v : Worker} {e : Entry} (hv : ({ s.server with inflightQ := q }.setWorker w
      (.signalling entry)).workers v = .signalling e) :
      (v = w ∧ entry = e) ∨ s.server.workers v = .signalling e := by
    rcases signalling_setWorker.mp hv with ⟨hvw,he⟩ | ⟨-,hv'⟩
    · exact .inl ⟨hvw,Pc.signalling.inj he⟩
    · exact .inr hv'
  refine ⟨fun e he => h.fresh e (hsub he),honce,fun v e hv => ?_,fun u v e hu hv => ?_,
    fun e he => ⟨(h.signalled e he).1,fun hm => (h.signalled e he).2 (hsub hm)⟩,h.freed,
    fun v e hv => h.kept v e (hevicts v e hv),fun v e hv => h.woken v e (hevicts v e hv),fun v e hv => ?_⟩
  · rcases hsignal hv with ⟨-,rfl⟩ | hv
    · exact ⟨h.fresh entry hmem,hentry,fun hm => (h.signalled entry hm).2 hmem⟩
    · obtain ⟨hid,hnot,hns⟩ := h.signalling v e hv
      exact ⟨hid,fun hm => hnot (hsub hm),hns⟩
  · rcases hsignal hu with ⟨hu',he⟩ | hu' <;> rcases hsignal hv with ⟨hv',he'⟩ | hv'
    · exact hu'.trans hv'.symm
    · exact absurd (he ▸ hmem) (h.signalling v e hv').2.1
    · exact absurd (he' ▸ hmem) (h.signalling u e hu').2.1
    · exact h.distinct u v e hu' hv'
  · rcases h.place v e (hevicts v e hv) with hm | ⟨u,hu⟩ | hm
    · rcases List.mem_cons.mp (hp.mem_iff.mp hm) with rfl | hm
      · exact .inr (.inl ⟨w,signalling_setWorker.mpr (.inl ⟨rfl,rfl⟩)⟩)
      · exact .inl hm
    · refine .inr (.inl ⟨u,signalling_setWorker.mpr (.inr ⟨?_,hu⟩)⟩)
      rintro rfl
      rw [hw] at hu
      cases hu
    · exact .inr (.inr hm)

/-- The evictor deallocates its entry, and perhaps it finds another one. -/
theorem Entries.resume (h : Entries s) (hunique : ∀ v e, Evicts s.server v e → v = w)
    (hw : Evicts s.server w entry) (hwait : s.wait = .woken) (c : Cache) (o : Option Worker)
    (hsig : ∀ e, pc ≠ .signalling e)
    (hpc : ∀ data elem e, pc = .evicting data elem e → e ∈ s.server.inflightQ) :
    Entries { s with
      server := { s.server with
        cache := c, cacheAccess := o, freedEntries := entry::s.server.freedEntries }.setWorker w pc
      wait := .found } := by
  have hsignal (v : Worker) (e : Entry) : ({ s.server with
      cache := c, cacheAccess := o, freedEntries := entry::s.server.freedEntries }.setWorker w pc).workers v =
        .signalling e ↔ s.server.workers v = .signalling e := by
    obtain ⟨data,elem,hw⟩ := hw
    exact signalling_moves (fun e => by simp [hw]) hsig
  have hevicts {v : Worker} {e : Entry} (hv : Evicts ({ s.server with
      cache := c, cacheAccess := o, freedEntries := entry::s.server.freedEntries }.setWorker w pc) v e) :
      e ∈ s.server.inflightQ := by
    rcases evicts_setWorker.mp hv with ⟨-,d,el,he⟩ | ⟨hvw,hv⟩
    · exact hpc d el e he
    · exact absurd (hunique v e hv) hvw
  have hentry := h.woken w entry hw hwait
  have hfreed : ∀ e ∈ entry::s.server.freedEntries, e ∈ s.signalled := by
    intro e he
    rcases List.mem_cons.mp he with rfl | he
    · exact hentry
    · exact h.freed e he
  exact ⟨h.fresh,h.once,fun v e hv => h.signalling v e ((hsignal v e).mp hv),
    fun u v e hu hv => h.distinct u v e ((hsignal u e).mp hu) ((hsignal v e).mp hv),h.signalled,hfreed,
    fun v e hv hf => (h.signalled e (hfreed e hf)).2 (hevicts hv),fun v e _ hwoken => (by cases hwoken),
    fun v e hv => .inl (hevicts hv)⟩

/-- A signal, which wakes the evictor that waits for the entry. -/
theorem Entries.signal (h : Entries s) (hw : s.server.workers w = .signalling entry)
    (hwaits : ∀ v e, Evicts s.server v e → waitsFor s.server entry = true → e = entry) :
    Entries
      { server := s.server.setWorker w .idle
        wait := if s.wait = .waiting ∧ waitsFor s.server entry = true then .woken else s.wait
        signalled := entry::s.signalled } := by
  have hsignal {v : Worker} {e : Entry} (hv : (s.server.setWorker w .idle).workers v = .signalling e) :
      v ≠ w ∧ s.server.workers v = .signalling e := by
    rcases signalling_setWorker.mp hv with ⟨-,he⟩ | hv
    · cases he
    · exact hv
  have hevicts {v : Worker} {e : Entry} (hv : Evicts (s.server.setWorker w .idle) v e) :
      Evicts s.server v e := evicts_moves (fun _ _ _ => by simp) hv
  obtain ⟨hid,hnot,hns⟩ := h.signalling w entry hw
  refine ⟨h.fresh,h.once,fun v e hv => ?_,fun u v e hu hv => h.distinct u v e (hsignal hu).2 (hsignal hv).2,
    fun e he => ?_,fun e he => List.mem_cons_of_mem _ (h.freed e he),fun v e hv => h.kept v e (hevicts hv),
    fun v e hv hwoken => ?_,fun v e hv => ?_⟩
  · obtain ⟨hvw,hv'⟩ := hsignal hv
    obtain ⟨hid',hnot',hns'⟩ := h.signalling v e hv'
    refine ⟨hid',hnot',fun hm => ?_⟩
    rcases List.mem_cons.mp hm with rfl | hm
    · exact hvw (h.distinct v w _ hv' hw)
    · exact hns' hm
  · rcases List.mem_cons.mp he with rfl | he
    · exact ⟨hid,hnot⟩
    · exact h.signalled e he
  · by_cases hcase : s.wait = .waiting ∧ waitsFor s.server entry = true
    · rw [hwaits v e (hevicts hv) hcase.2]
      exact List.mem_cons_self
    · rw [if_neg hcase] at hwoken
      exact List.mem_cons_of_mem _ (h.woken v e (hevicts hv) hwoken)
  · rcases h.place v e (hevicts hv) with hm | ⟨u,hu⟩ | hm
    · exact .inl hm
    · by_cases huw : u = w
      · rw [huw,hw] at hu
        rw [← Pc.signalling.inj hu]
        exact .inr (.inr List.mem_cons_self)
      · exact .inr (.inl ⟨u,signalling_setWorker.mpr (.inr ⟨huw,hu⟩)⟩)
    · exact .inr (.inr (List.mem_cons_of_mem _ hm))

/-- The next section keeps the entries where they should be. -/
theorem section_entries (h : Sound files n s) (hst : Section s w s') : Entries s' := by
  have hentries := h.toEntries
  cases hst with
  | locks entry hw hwait =>
    refine ⟨h.fresh,h.once,h.signalling,h.distinct,h.signalled,h.freed,h.kept,?_,h.place⟩
    intro v e _ hwoken
    cases hwoken
  | resumes entry t hw hwait hturn =>
    have hunique : ∀ v e, Evicts s.server v e → v = w := fun v e hv => (h.evictor_unique hv hw).1
    rcases hturn.of_evicts hw with ⟨c,data,rfl⟩ | ⟨c,data,elem,e,hmem,rfl⟩
    · exact hentries.resume hunique hw hwait c none (by simp) (by simp)
    · refine hentries.resume hunique hw hwait c (some w) (by simp) fun _ _ f hf => ?_
      rw [← (Pc.evicting.inj hf).2.2]
      exact hmem
  | signals foundFile hw =>
    exact hentries.signal hw fun v e hv hwaits => (h.waitsFor_iff hv).mp hwaits
  | moves t hevict hsignal hturn =>
    cases hturn with
    | refuses hw => exact hentries.keep rfl rfl rfl (fun _ _ => Iff.rfl) fun _ _ hv => hv
    | starts hw =>
      exact hentries.keep rfl rfl rfl (fun v e => signalling_moves hsignal (by simp))
        fun v e => evicts_moves (by simp)
    | moves c pc hp =>
      exact hentries.keep rfl rfl rfl (fun v e => signalling_moves hsignal fun e => hp.not_signalling)
        fun v e => evicts_moves fun _ _ _ => hp.not_evicting
    | waits c d el e hw hn hmem =>
      exact hentries.wait c hw (h.nobody hn) (h.free hn) hmem
    | resumes c d el e he => exact absurd ⟨d,el,he⟩ (hevict e)
    | waitsAgain c d el el' e e' he hmem => exact absurd ⟨d,el,he⟩ (hevict e)
    | announces d hw => exact hentries.announce hw
    | withdraws d e q hw hp => exact hentries.withdraw hw hp
    | signals e hw => exact absurd hw (hsignal e)

/-! ### Runs that evict no chosen file -/

/-- The files that the next section of the worker removes from the cache. -/
def evicted (files : File → FileData) (s : State) (w : Worker) : List File :=
  match s.server.workers w, s.wait with
  | .evicting _ _ _, .found => []
  | .evicting _ _ _, .waiting => []
  | _, _ => ServedFiles.evicted files s.server w

/-- The section removes no file that a worker has chosen and not announced. -/
def KeepsChosen (files : File → FileData) (s : State) (a : ServerModel.Action) : Prop :=
  ∀ w, a = .run w → ∀ f ∈ evicted files s w, ∀ v, s.server.workers v ≠ .chosen f

theorem Turn.status_eq (h : Turn s.server w t) : t.status = s.server.status := by
  cases h <;> rfl

theorem Turn.others (h : Turn s.server w t) {v : Worker} (hv : v ≠ w) :
    t.workers v = s.server.workers v := by
  cases h <;> first | rfl | exact Function.update_of_ne hv ..

/-- A section is one of the server, or it begins the wait. -/
theorem step_server (hst : step files n s a = some s') (hr : s'.server.status = .running) :
    s'.server = s.server ∨ ServerModel.step files s.server a = some s'.server ∧
      ∀ w, a = .run w → evicted files s w = ServedFiles.evicted files s.server w := by
  obtain ⟨hn,hst⟩ := Option.ite_none_left_eq_some.mp hst
  have hrun : s.server.status = .running := by
    by_contra hne
    exact hn (.inl hne)
  cases a with
  | fail w =>
    obtain ⟨t,ht,rfl⟩ := Option.map_eq_some_iff.mp hst
    exact .inr ⟨(if_neg (not_not.mpr hrun)).trans ht,fun v hv => by cases hv⟩
  | run w =>
    have hstep : ServerModel.step files s.server (.run w) = ServerModel.runWorker files w s.server :=
      if_neg (not_not.mpr hrun)
    rw [hstep]
    change runWorker files w s = some s' at hst
    unfold runWorker at hst
    split at hst
    · rename_i data elem entry hw
      cases hwait : s.wait with
      | found =>
        rw [hwait] at hst
        dsimp only at hst
        split at hst
        · obtain rfl := Option.some.inj hst
          cases hr
        · obtain rfl := Option.some.inj hst
          exact .inl rfl
      | waiting =>
        rw [hwait] at hst
        cases hst
      | woken =>
        rw [hwait] at hst
        obtain ⟨t,ht,rfl⟩ := Option.map_eq_some_iff.mp hst
        refine .inr ⟨ht,fun v hv => ?_⟩
        obtain rfl := ServerModel.Action.run.inj hv
        simp [evicted,hw,hwait]
    · rename_i foundFile hw
      obtain ⟨t,ht,rfl⟩ := Option.map_eq_some_iff.mp hst
      refine .inr ⟨ht,fun v hv => ?_⟩
      obtain rfl := ServerModel.Action.run.inj hv
      simp [evicted,hw]
    · rename_i hevicts _
      obtain ⟨t,ht,rfl⟩ := Option.map_eq_some_iff.mp hst
      refine .inr ⟨ht,fun v hv => ?_⟩
      obtain rfl := ServerModel.Action.run.inj hv
      unfold evicted
      split
      · rename_i hw _
        exact absurd hw (hevicts _ _ _)
      · rename_i hw _
        exact absurd hw (hevicts _ _ _)
      · rfl

theorem section_status (hst : Section s w s') : s'.server.status = s.server.status := by
  cases hst with
  | locks => rfl
  | resumes entry t _ _ hturn => exact hturn.status_eq
  | signals => rfl
  | moves t _ _ hturn => exact hturn.status_eq

theorem section_others (hst : Section s w s') {v : Worker} (hv : v ≠ w) :
    s'.server.workers v = s.server.workers v := by
  cases hst with
  | locks => rfl
  | resumes entry t _ _ hturn => exact hturn.others hv
  | signals => exact Function.update_of_ne hv ..
  | moves t _ _ hturn => exact hturn.others hv

theorem section_free (h : Sound files n s) (hst : Section s w s') (hn : s'.server.cacheAccess = none) :
    s'.wait = .found := by
  cases hst with
  | locks entry hw => exact absurd hw (h.nobody hn w entry)
  | resumes => rfl
  | signals foundFile =>
    have hfound := h.free hn
    simp [hfound]
  | moves t hevict _ hturn =>
    refine h.free ?_
    cases hturn with
    | waits => cases hn
    | resumes c d el e he => exact absurd ⟨d,el,he⟩ (hevict e)
    | waitsAgain => cases hn
    | _ => exact hn

theorem Sound.step (h : Sound files n s) (hk : KeepsChosen files s a)
    (hst : step files n s a = some s') : Sound files n s' := by
  obtain ⟨hlt,hsection,hu⟩ := step_section h hst
  have hr : s'.server.status = .running := (section_status hsection).trans h.running
  refine ⟨section_entries h hsection,hr,?_,hu,fun v hv => ?_,section_free h hsection⟩
  · rcases step_server hst hr with he | ⟨hs,hevicted⟩
    · exact he ▸ h.inv
    · refine step_inv h.inv (fun w hw f hf => hk w hw f ?_) hs
      rwa [hevicted w hw]
  · rw [section_others hsection (hlt.trans_le hv).ne']
    exact h.idle v hv

theorem sound_init {maxCacheSize : BitVec 32} (hpos : 0 < (initCache maxCacheSize).arraySize) (n : ℕ) :
    Sound files n (init maxCacheSize) where
  fresh e he := by cases he
  once := List.nodup_nil
  signalling w e hw := by cases hw
  distinct w v e hw := by cases hw
  signalled e he := by cases he
  freed e he := by cases he
  kept w e hw := by obtain ⟨data,elem,hw⟩ := hw; cases hw
  woken w e hw := by obtain ⟨data,elem,hw⟩ := hw; cases hw
  place w e hw := by obtain ⟨data,elem,hw⟩ := hw; cases hw
  running := rfl
  inv := serverInit_inv (CacheRefinement.limit_pos hpos)
  usable _ := initCache_represents hpos
  idle _ _ := rfl
  free _ := rfl

end sections

end RequestSections
end OsLabs

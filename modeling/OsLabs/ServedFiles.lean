import OsLabs.CacheInvariant
import OsLabs.LinkedQueue
import OsLabs.ServerModel

/-!
# Files that are being sent

A worker chooses its file under `cache_access` and announces it under `inflight_access`.
Between the two sections another worker may evict the file, since `remove_from_cache` only
looks at the announced ones. In the runs in which no step evicts a file that a worker has
chosen and not announced yet, a file is never freed while it is in use.
-/

namespace OsLabs
namespace ServedFiles

open CacheModel CacheInvariant ServerModel Transition
open LinkedQueue (perm_eraseP)

/-- The file that the worker has chosen to send and has not finished with. -/
def serves : Pc → Option File
  | .chosen data | .sending data | .sent data => some data
  | _ => none

/-- The file that the worker has announced. -/
def announces : Pc → Option File
  | .sending data | .sent data => some data
  | _ => none

/-- The object of the worker's request that was not passed to the cache for good. -/
def owns : Pc → Option File
  | .requested data | .missed data | .read data | .evicting data _ _ => some data
  | _ => none

/-- `remove_from_cache` has freed the file. -/
def Freed (c : Cache) (f : File) : Prop := ∃ r ∈ c.removals, r.freed = some f

/-- No worker uses a file that `remove_from_cache` has freed. -/
def Safe (s : Server) : Prop := ∀ w f, serves (s.workers w) = some f → ¬ Freed s.cache f

variable {files : File → FileData} {s s' : Server} {c : Cache} {data elem : File} {q : List Entry}

/-! ### The files that have to go -/

/-- The files at the front of the list that are removed to make room, up to one in flight. -/
def victims (files : File → FileData) (q : List Entry) (data : File) (maxSize : BitVec 32) :
    BitVec 32 → List File → List File
  | _, [] => []
  | currSize, f::l =>
    if (currSize+(files data).fileSize).sle maxSize = true ∨ currSize = 0 ∨
      (isInFlight files q f).isSome = true then []
    else f::victims files q data maxSize (currSize-(files f).fileSize) l

/-- The removals of the files, latest first. -/
def removed (l : List File) : List Removal := (l.map fun f => ⟨f,some f⟩).reverse

/-- What `cache_insert` has done when it returns or waits: it has removed the files `vs`. -/
inductive Cleared (files : File → FileData) (q : List Entry) (data : File) (c : Cache)
    (vs : List File) : Progress → Prop
  | returns (inserted : Bool) (c' : Cache) (rest : List File) : c.lruPolicy = vs ++ rest →
      Represents files c' → c'.removals = removed vs ++ c.removals →
      c'.lruPolicy = rest ∨ c'.lruPolicy = pushBack data rest →
      Cleared files q data c vs (.returns inserted c')
  | waits (elem : File) (c' : Cache) (entry : Entry) : c.lruPolicy = vs ++ elem::c'.lruPolicy →
      Removing files data elem c' → c'.removals = removed vs ++ c.removals →
      isInFlight files q elem = some entry → Cleared files q data c vs (.removes elem c')

theorem removed_cons (f : File) (l : List File) (rs : List Removal) :
    removed (f::l) ++ rs = removed l ++ ⟨f,some f⟩::rs := by
  simp [removed]

theorem victims_not_inFlight {maxSize : BitVec 32} {l : List File} {currSize : BitVec 32} {f : File}
    (hf : f ∈ victims files q data maxSize currSize l) : isInFlight files q f = none := by
  induction l generalizing currSize with
  | nil => simp [victims] at hf
  | cons g l ih =>
    rw [victims] at hf
    split at hf
    · simp at hf
    · rename_i hn
      simp only [not_or] at hn
      rcases List.mem_cons.mp hf with rfl | hf
      · simpa using hn.2.2
      · exact ih hf

/-- The victims of a cache. -/
abbrev victimsOf (files : File → FileData) (q : List Entry) (data : File) (c : Cache) : List File :=
  victims files q data c.maxSize c.currSize c.lruPolicy

theorem victims_nil_of_fits (hf : fits files data c = true) : victimsOf files q data c = [] := by
  unfold victimsOf
  cases c.lruPolicy with
  | nil => rfl
  | cons f l =>
    rw [victims,if_pos]
    exact .inl hf

/-- After the removal of the first file. -/
theorem Cleared.cons {vs : List File} {p : Progress} {c₀ : Cache} (hr : Removing files data elem c)
    (hl₀ : c₀.lruPolicy = elem::c.lruPolicy) (hr₀ : c₀.removals = c.removals)
    (h : Cleared files q data (removeFromCache files elem c) vs p) :
    Cleared files q data c₀ (elem::vs) p := by
  obtain ⟨_,hl,hrm,_⟩ := hr.holds.remove
  cases h with
  | returns inserted c' rest h₁ h₂ h₃ h₄ =>
    rw [hl] at h₁
    refine .returns inserted c' rest (by simp [hl₀,h₁]) h₂ ?_ h₄
    rw [removed_cons,h₃,hrm,hr₀]
  | waits elem' c' entry h₁ h₂ h₃ h₄ =>
    rw [hl] at h₁
    refine .waits elem' c' entry (by simp [hl₀,h₁]) h₂ ?_ h₄
    rw [removed_cons,h₃,hrm,hr₀]

/-- The loop of evictions removes the victims and nothing else. -/
theorem evictions_cleared {n : ℕ} {p : Progress} (h : Represents files c)
    (ha : Advance files data c p) (hs : c.maxSize.slt (files data).fileSize = false)
    (hn : listed files data c.lruPolicy = false) (hlen : c.lruPolicy.length ≤ n) :
    Cleared files q data c (victimsOf files q data c) (evictions files q data n p) := by
  induction n generalizing c p with
  | zero =>
    cases ha with
    | returns inserted c' hr hrm hl hf =>
      rw [victims_nil_of_fits (hf hs hn)]
      exact .returns inserted c' c.lruPolicy rfl hr (by simpa [removed] using hrm) hl
    | removes elem l hl _ _ _ _ => simp [hl] at hlen
  | succ n ih =>
    cases ha with
    | returns inserted c' hr hrm hl hf =>
      rw [victims_nil_of_fits (hf hs hn)]
      exact .returns inserted c' c.lruPolicy rfl hr (by simpa [removed] using hrm) hl
    | removes elem l hl hs' hn' hf h₀ =>
      obtain ⟨hr,_⟩ := Advance.removing h (.removes elem l hl hs' hn' hf h₀)
      have hv : victimsOf files q data c = if (isInFlight files q elem).isSome = true then []
          else elem::victims files q data c.maxSize (c.currSize-(files elem).fileSize) l := by
        have hf' : ¬ (c.currSize+(files data).fileSize).sle c.maxSize = true := by simpa [fits] using hf
        unfold victimsOf
        rw [hl,victims]
        simp only [hf',h₀,false_or,Bool.false_eq_true]
      cases hq : isInFlight files q elem with
      | some entry =>
        rw [hv,hq]
        simp only [evictions,hq]
        exact .waits elem _ entry hl hr (by simp [removed]) hq
      | none =>
        obtain ⟨_,hl',_,hc⟩ := hr.holds.remove
        have hlen' : (removeFromCache files elem { c with lruPolicy := l }).lruPolicy.length ≤ n := by
          rw [hl']
          rw [hl] at hlen
          simpa using hlen
        have hs₁ : (removeFromCache files elem { c with lruPolicy := l }).maxSize.slt
            (files data).fileSize = false := by
          rw [removeFromCache_maxSize]
          exact hs
        have hcl := ih hr.represents hr.insertNext_advance hs₁ hr.absent_tail hlen'
        have hvs : victimsOf files q data c = elem::victimsOf files q data
            (removeFromCache files elem { c with lruPolicy := l }) := by
          rw [hv,hq,victimsOf,hl',hc,removeFromCache_maxSize]
          simp
        rw [hvs]
        simp only [evictions,hq]
        exact hcl.cons hr hl rfl

/-- The files that the next step of the worker removes from the cache. -/
def evicted (files : File → FileData) (s : Server) (w : Worker) : List File :=
  match s.workers w with
  | .read data =>
    if listed files data s.cache.lruPolicy = true ∨
      s.cache.maxSize.slt (files data).fileSize = true then []
    else victimsOf files s.inflightQ data s.cache
  | .evicting data elem inFlightFile =>
    if inFlightFile ∈ s.inflightQ ∨ (isInFlight files s.inflightQ elem).isSome = true then []
    else elem::victims files s.inflightQ data s.cache.maxSize
      (s.cache.currSize-(files elem).fileSize) s.cache.lruPolicy
  | _ => []

/-- The step removes no file from the cache that a worker has chosen and not announced. -/
def Undisturbed (files : File → FileData) (s : Server) (a : ServerModel.Action) : Prop :=
  ∀ w, a = .run w → ∀ f ∈ evicted files s w, ∀ v, s.workers v ≠ .chosen f

/-! ### The invariant -/

/-- The cache can be used, or it has no chain and no file. -/
def Ready (files : File → FileData) (c : Cache) : Prop :=
  Represents files c ∨ c.arraySize = 0 ∧ c.lruPolicy = []

/-- The worker that waits in `remove_from_cache` holds `cache_access`. -/
structure Access (files : File → FileData) (s : Server) : Prop where
  state : (s.cacheAccess = none ∧ Ready files s.cache) ∨ ∃ w data elem entry,
    s.cacheAccess = some w ∧ s.workers w = .evicting data elem entry ∧ Removing files data elem s.cache
  holder : ∀ w data elem entry, s.workers w = .evicting data elem entry → s.cacheAccess = some w

def fileName (files : File → FileData) (f : File) : FileName := (files f).fileName

/-- The queue has one entry for each worker that has announced a file, under its name. -/
def Announced (files : File → FileData) (s : Server) : Prop :=
  ∃ l : List Worker, l.Nodup ∧ (∀ w, w ∈ l ↔ announces (s.workers w) ≠ none) ∧
    (s.inflightQ.map fun e => some (fileName files e.data)).Perm
      (l.map fun w => (announces (s.workers w)).map (fileName files))

/-- What holds in every run. -/
structure Core (files : File → FileData) (s : Server) : Prop where
  access : Access files s
  cached : ∀ f ∈ table s.cache, f < s.nextFile ∧ ¬ Freed s.cache f
  freed : ∀ f, Freed s.cache f → f < s.nextFile
  own : ∀ w f, owns (s.workers w) = some f → f < s.nextFile ∧ f ∉ table s.cache ∧ ¬ Freed s.cache f
  distinct : ∀ w v f, owns (s.workers w) = some f → owns (s.workers v) = some f → w = v
  announced : Announced files s

structure Inv (files : File → FileData) (s : Server) : Prop extends Core files s where
  safe : Safe s

/-- What a step of the worker changes. -/
structure Frame (files : File → FileData) (s : Server) (w : Worker) (s' : Server) : Prop where
  others : ∀ v, v ≠ w → s'.workers v = s.workers v
  access : Access files s'
  freed : ∀ f, Freed s'.cache f ↔ Freed s.cache f ∨ f ∈ evicted files s w
  evicted_cached : ∀ f ∈ evicted files s w, f ∈ table s.cache
  cached : ∀ f ∈ table s'.cache, f ∉ evicted files s w ∧
    (f ∈ table s.cache ∨ owns (s.workers w) = some f ∧ owns (s'.workers w) ≠ some f)
  owned : ∀ f, owns (s'.workers w) = some f →
    owns (s.workers w) = some f ∨ f = s.nextFile ∧ s'.nextFile = s.nextFile+1
  next : s.nextFile ≤ s'.nextFile
  served : ∀ f, serves (s'.workers w) = some f → serves (s.workers w) = some f ∨
    owns (s.workers w) = some f ∨ f ∈ table s.cache ∧ f ∉ evicted files s w
  announced : Announced files s'

theorem Core.frame {w : Worker} (h : Core files s) (hf : Frame files s w s') : Core files s' where
  access := hf.access
  cached f hm := by
    obtain ⟨hv,ht | ⟨ho,_⟩⟩ := hf.cached f hm
    · have hc := h.cached f ht
      exact ⟨hc.1.trans_le hf.next,fun hfr => ((hf.freed f).mp hfr).elim hc.2 hv⟩
    · have hc := h.own w f ho
      exact ⟨hc.1.trans_le hf.next,fun hfr => ((hf.freed f).mp hfr).elim hc.2.2 hv⟩
  freed f hfr := by
    rcases (hf.freed f).mp hfr with hfr | hv
    · exact (h.freed f hfr).trans_le hf.next
    · exact (h.cached f (hf.evicted_cached f hv)).1.trans_le hf.next
  own v f ho := by
    by_cases hv : v = w
    · subst hv
      rcases hf.owned f ho with hw | ⟨rfl,hn⟩
      · obtain ⟨hlt,hnt,hnf⟩ := h.own v f hw
        refine ⟨hlt.trans_le hf.next,fun hm => ?_,fun hfr => ?_⟩
        · rcases (hf.cached f hm).2 with ht | ⟨_,hne⟩
          · exact hnt ht
          · exact hne ho
        · exact ((hf.freed f).mp hfr).elim hnf fun hv => hnt (hf.evicted_cached f hv)
      · refine ⟨hn ▸ Nat.lt_succ_self _,fun hm => ?_,fun hfr => ?_⟩
        · rcases (hf.cached _ hm).2 with ht | ⟨_,hne⟩
          · exact absurd (h.cached _ ht).1 (lt_irrefl _)
          · exact hne ho
        · rcases (hf.freed _).mp hfr with hfr | hv
          · exact absurd (h.freed _ hfr) (lt_irrefl _)
          · exact absurd (h.cached _ (hf.evicted_cached _ hv)).1 (lt_irrefl _)
    · rw [hf.others v hv] at ho
      obtain ⟨hlt,hnt,hnf⟩ := h.own v f ho
      refine ⟨hlt.trans_le hf.next,fun hm => ?_,fun hfr => ?_⟩
      · rcases (hf.cached f hm).2 with ht | ⟨hw,_⟩
        · exact hnt ht
        · exact hv (h.distinct v w f ho hw)
      · exact ((hf.freed f).mp hfr).elim hnf fun hv => hnt (hf.evicted_cached f hv)
  distinct v u f hv hu := by
    have hcase : ∀ v, owns (s'.workers v) = some f →
        owns (s.workers v) = some f ∨ v = w ∧ f = s.nextFile := by
      intro v hv
      by_cases hvw : v = w
      · subst hvw
        exact (hf.owned f hv).imp_right fun hn => ⟨rfl,hn.1⟩
      · exact .inl (hf.others v hvw ▸ hv)
    rcases hcase v hv with hv | ⟨rfl,rfl⟩ <;> rcases hcase u hu with hu | ⟨rfl,hf'⟩
    · exact h.distinct v u f hv hu
    · exact absurd (h.own v f hv).1 (by rw [hf']; exact lt_irrefl _)
    · exact absurd (h.own u _ hu).1 (lt_irrefl _)
    · rfl
  announced := hf.announced

theorem Inv.frame {w : Worker} (h : Inv files s) (hf : Frame files s w s')
    (hs : ∀ v, ∀ f ∈ evicted files s w, serves (s.workers v) ≠ some f) : Inv files s' where
  toCore := h.toCore.frame hf
  safe v f hv hfr := by
    by_cases hvw : v = w
    · subst hvw
      rcases hf.served f hv with hs' | ho | ⟨ht,hnv⟩
      · exact ((hf.freed f).mp hfr).elim (h.safe v f hs') fun hm => hs v f hm hs'
      · obtain ⟨_,hnt,hnf⟩ := h.own v f ho
        exact ((hf.freed f).mp hfr).elim hnf fun hm => hnt (hf.evicted_cached f hm)
      · exact ((hf.freed f).mp hfr).elim (h.cached f ht).2 hnv
    · rw [hf.others v hvw] at hv
      exact ((hf.freed f).mp hfr).elim (h.safe v f hv) fun hm => hs v f hm hv

/-! ### Announcements -/

theorem Announced.inFlight (h : Announced files s) {w : Worker} {f : File}
    (hw : announces (s.workers w) = some f) : isInFlight files s.inflightQ f ≠ none := by
  obtain ⟨l,_,hl,hp⟩ := h
  have hm : some (fileName files f) ∈ l.map fun w => (announces (s.workers w)).map (fileName files) :=
    List.mem_map.mpr ⟨w,(hl w).mpr (by simp [hw]),by simp [hw]⟩
  obtain ⟨e,he,hn⟩ := List.mem_map.mp (hp.mem_iff.mpr hm)
  intro hnone
  have hne := List.find?_eq_none.mp hnone e he
  exact hne (by simpa [sameName,fileName] using hn)

theorem Announced.keep (h : Announced files s) (hq : s'.inflightQ = s.inflightQ)
    (hw : ∀ v, announces (s'.workers v) = announces (s.workers v)) : Announced files s' := by
  obtain ⟨l,hn,hl,hp⟩ := h
  exact ⟨l,hn,fun v => by rw [hw,hl],by simpa only [hq,hw] using hp⟩

theorem Announced.add {w : Worker} {e : Entry} (h : Announced files s)
    (hq : s'.inflightQ = s.inflightQ ++ [e]) (ho : ∀ v, v ≠ w → s'.workers v = s.workers v)
    (hw : announces (s.workers w) = none) (hw' : announces (s'.workers w) = some e.data) :
    Announced files s' := by
  obtain ⟨l,hn,hl,hp⟩ := h
  have hwl : w ∉ l := fun hm => (hl w).mp hm hw
  have hmap : (l.map fun v => (announces (s'.workers v)).map (fileName files)) =
      l.map fun v => (announces (s.workers v)).map (fileName files) :=
    List.map_congr_left fun v hv => by rw [ho v (by rintro rfl; exact hwl hv)]
  refine ⟨w::l,List.nodup_cons.mpr ⟨hwl,hn⟩,fun v => ?_,?_⟩
  · by_cases hv : v = w
    · simp [hv,hw']
    · simp [hv,ho v hv,hl]
  · rw [hq,List.map_append,List.map_cons (l := l),hmap,hw']
    exact (List.perm_append_singleton _ _).trans (hp.cons _)

theorem Announced.remove {w : Worker} {foundFile : Entry} (h : Announced files s)
    (hq : removeFromQueue files data s.inflightQ = some (foundFile,s'.inflightQ))
    (ho : ∀ v, v ≠ w → s'.workers v = s.workers v) (hw : announces (s.workers w) = some data)
    (hw' : announces (s'.workers w) = none) : Announced files s' := by
  obtain ⟨l,hn,hl,hp⟩ := h
  obtain ⟨e,hf,he⟩ := Option.map_eq_some_iff.mp hq
  obtain ⟨rfl,hq'⟩ := Prod.mk.inj he
  have hname : fileName files e.data = fileName files data := by
    simpa [sameName,fileName] using List.find?_some hf
  have hwl : w ∈ l := (hl w).mpr (by simp [hw])
  have hmap : ((l.erase w).map fun v => (announces (s'.workers v)).map (fileName files)) =
      (l.erase w).map fun v => (announces (s.workers v)).map (fileName files) :=
    List.map_congr_left fun v hv => by rw [ho v ((hn.mem_erase_iff.mp hv).1)]
  refine ⟨l.erase w,hn.erase w,fun v => ?_,?_⟩
  · by_cases hv : v = w
    · simp [hv,hw',hn.mem_erase_iff]
    · simp [hn.mem_erase_iff,hv,ho v hv,hl]
  · rw [hmap,← hq']
    have h₁ := (perm_eraseP hf).map fun e : Entry => some (fileName files e.data)
    have h₂ := (List.perm_cons_erase hwl).map fun v => (announces (s.workers v)).map (fileName files)
    simp only [List.map_cons,hw,Option.map_some,hname] at h₁ h₂
    exact List.Perm.cons_inv (h₁.symm.trans (hp.trans h₂))

/-! ### Access to the cache -/

theorem Access.keep {w : Worker} (h : Access files s) (hc : s'.cache = s.cache)
    (ha : s'.cacheAccess = s.cacheAccess) (ho : ∀ v, v ≠ w → s'.workers v = s.workers v)
    (hw : ∀ data elem entry, s.workers w ≠ .evicting data elem entry)
    (hw' : ∀ data elem entry, s'.workers w ≠ .evicting data elem entry) : Access files s' where
  state := by
    rw [ha,hc]
    refine h.state.imp_right ?_
    rintro ⟨v,data,elem,entry,h₁,h₂,h₃⟩
    refine ⟨v,data,elem,entry,h₁,?_,h₃⟩
    rw [ho v (by rintro rfl; exact hw _ _ _ h₂),h₂]
  holder v data elem entry hv := by
    rw [ha]
    refine h.holder v data elem entry ?_
    rw [← hv,ho v]
    rintro rfl
    exact hw' _ _ _ hv

/-- Nobody waits in `remove_from_cache` when `cache_access` is free. -/
theorem Access.free {w : Worker} (h : Access files s) (hn : s.cacheAccess = none)
    (hc : Ready files s'.cache) (ha : s'.cacheAccess = none)
    (ho : ∀ v, v ≠ w → s'.workers v = s.workers v)
    (hw' : ∀ data elem entry, s'.workers w ≠ .evicting data elem entry) : Access files s' where
  state := .inl ⟨ha,hc⟩
  holder v data elem entry hv := by
    have hvw : v ≠ w := by
      rintro rfl
      exact hw' _ _ _ hv
    rw [ho v hvw] at hv
    exact absurd (hn.symm.trans (h.holder v data elem entry hv)) (by simp)

/-! ### The steps -/

theorem evicted_nil {w : Worker} (hr : ∀ data, s.workers w ≠ .read data)
    (he : ∀ data elem entry, s.workers w ≠ .evicting data elem entry) : evicted files s w = [] := by
  unfold evicted
  split
  · rename_i data hw
    exact absurd hw (hr data)
  · rename_i data elem entry hw
    exact absurd hw (he data elem entry)
  · rfl

/-- Steps that remove no file and insert none. -/
theorem Frame.of_same {w : Worker} (hv : evicted files s w = [])
    (ht : ∀ f, f ∈ table s'.cache ↔ f ∈ table s.cache) (hr : s'.cache.removals = s.cache.removals)
    (ho : ∀ v, v ≠ w → s'.workers v = s.workers v) (ha : Access files s') (hn : Announced files s')
    (hown : ∀ f, owns (s'.workers w) = some f →
      owns (s.workers w) = some f ∨ f = s.nextFile ∧ s'.nextFile = s.nextFile+1)
    (hnext : s.nextFile ≤ s'.nextFile)
    (hs : ∀ f, serves (s'.workers w) = some f → serves (s.workers w) = some f ∨
      owns (s.workers w) = some f ∨ f ∈ table s.cache) : Frame files s w s' where
  others := ho
  access := ha
  freed f := by simp [Freed,hr,hv]
  evicted_cached f hf := by simp [hv] at hf
  cached f hf := ⟨by simp [hv],.inl ((ht f).mp hf)⟩
  owned := hown
  next := hnext
  served f hf := (hs f hf).imp_right (Or.imp_right fun h => ⟨h,by simp [hv]⟩)
  announced := hn

/-- The program counter moves on between two sections. -/
theorem Core.moves {w : Worker} {pc : Pc} (h : Core files s) (hr : ∀ data, s.workers w ≠ .read data)
    (he : ∀ data elem entry, s.workers w ≠ .evicting data elem entry)
    (he' : ∀ data elem entry, pc ≠ .evicting data elem entry)
    (hown : ∀ f, owns pc = some f → owns (s.workers w) = some f)
    (hs : ∀ f, serves pc = some f → serves (s.workers w) = some f)
    (ha : announces pc = announces (s.workers w)) : Frame files s w (s.setWorker w pc) := by
  have ho : ∀ v, v ≠ w → (s.setWorker w pc).workers v = s.workers v :=
    fun v hv => Function.update_of_ne hv _ _
  have hw : (s.setWorker w pc).workers w = pc := Function.update_self _ _ _
  refine .of_same (evicted_nil hr he) (fun _ => Iff.rfl) rfl ho
    (h.access.keep rfl rfl ho he (by rwa [hw])) (h.announced.keep rfl fun v => ?_)
    (fun f hf => .inl (hown f (hw ▸ hf))) le_rfl (fun f hf => .inl (hs f (hw ▸ hf)))
  by_cases hv : v = w
  · rw [hv,hw,ha]
  · rw [ho v hv]

/-- A crash changes nothing else. -/
theorem Core.stops {w : Worker} (h : Core files s) (hv : evicted files s w = []) (status : Status) :
    Frame files s w { s with status := status } :=
  .of_same hv (fun _ => Iff.rfl) rfl (fun _ _ => rfl) ⟨h.access.state,h.access.holder⟩ h.announced
    (fun _ hf => .inl hf) le_rfl (fun _ hf => .inl hf)

/-- What `cache_lookup` and `getCachedFile` find. -/
inductive Looked (files : File → FileData) (data : File) (c : Cache) :
    Option (Option File) × Cache → Prop
  | miss : listed files data c.lruPolicy = false → Looked files data c (none,c)
  | hit (file : Option File) (l : List File) : c.lruPolicy.Perm l →
      listed files data c.lruPolicy = true → (∀ f, file = some f → f ∈ l) →
      Looked files data c (some file,{ c with lruPolicy := l })

theorem lookupFile_looked (files : File → FileData) (data : File) (c : Cache) :
    Looked files data c (lookupFile files data c) := by
  unfold lookupFile cacheLookup
  cases hr : removeFileToBeMovedToBack files data c.lruPolicy with
  | none => exact .miss (removeFileToBeMovedToBack_none hr)
  | some r =>
    obtain ⟨info,l⟩ := r
    obtain ⟨hp,hn⟩ := removeFileToBeMovedToBack_some hr
    refine .hit _ _ (hp.trans (List.perm_append_singleton info l).symm) ?_ fun f hf => ?_
    · exact List.any_eq_true.mpr ⟨info,hp.mem_iff.mpr (by simp),hn⟩
    · exact List.mem_of_find?_eq_some hf

theorem Ready.perm {l : List File} (h : Ready files c) (hp : c.lruPolicy.Perm l) :
    Ready files { c with lruPolicy := l } := by
  rcases h with h | ⟨h₀,hl⟩
  · have hh := Holds.perm h hp
    exact .inl ⟨hh.positive,hh.same,hh.once,hh.names,hh.chains,hh.total,hh.found⟩
  · rw [hl] at hp
    exact .inr ⟨h₀,hp.nil_eq.symm⟩

/-- The files of the list are in the table. -/
theorem Ready.mem_table {f : File} (h : Ready files c) (hf : f ∈ c.lruPolicy) : f ∈ table c := by
  rcases h with h | ⟨_,hl⟩
  · exact h.same.mem_iff.mpr hf
  · simp [hl] at hf

theorem Access.ready (h : Access files s) (hn : s.cacheAccess = none) : Ready files s.cache := by
  rcases h.state with h | ⟨w,_,_,_,h,_⟩
  · exact h.2
  · exact absurd (hn.symm.trans h) (by simp)

theorem Core.hit {w : Worker} {file : File} {l : List File} (h : Core files s)
    (hv : evicted files s w = []) (hn : s.cacheAccess = none)
    (hw : announces (s.workers w) = none) (hp : s.cache.lruPolicy.Perm l) (hf : file ∈ l) :
    Frame files s w ({ s with cache := { s.cache with lruPolicy := l } }.setWorker w (.chosen file)) := by
  have hc := h.access.ready hn
  have ho : ∀ v, v ≠ w → ({ s with cache := { s.cache with lruPolicy := l } }.setWorker w
      (.chosen file)).workers v = s.workers v := fun v hv => Function.update_of_ne hv _ _
  have hw' : ({ s with cache := { s.cache with lruPolicy := l } }.setWorker w
      (.chosen file)).workers w = .chosen file := Function.update_self _ _ _
  refine .of_same hv (fun _ => Iff.rfl) rfl ho
    (h.access.free hn (hc.perm hp) hn ho (by simp [hw'])) (h.announced.keep rfl fun v => ?_)
    (by simp [hw',owns]) le_rfl fun f hf' => ?_
  · by_cases hv : v = w
    · rw [hv,hw',hw]
      rfl
    · rw [ho v hv]
  · obtain rfl : file = f := by simpa [hw',serves] using hf'
    exact .inr (.inr (hc.mem_table (hp.mem_iff.mpr hf)))

theorem Core.requests {w : Worker} (h : Core files s) (hw : s.workers w = .idle) :
    Frame files s w ({ s with nextFile := s.nextFile+1 }.setWorker w (.requested s.nextFile)) := by
  have ho : ∀ v, v ≠ w → ({ s with nextFile := s.nextFile+1 }.setWorker w
      (.requested s.nextFile)).workers v = s.workers v := fun v hv => Function.update_of_ne hv _ _
  have hw' : ({ s with nextFile := s.nextFile+1 }.setWorker w
      (.requested s.nextFile)).workers w = .requested s.nextFile := Function.update_self _ _ _
  refine .of_same (evicted_nil (by simp [hw]) (by simp [hw])) (fun _ => Iff.rfl) rfl ho
    (h.access.keep rfl rfl ho (by simp [hw]) (by simp [hw'])) (h.announced.keep rfl fun v => ?_)
    (fun f hf => .inr ⟨?_,rfl⟩) (Nat.le_succ _) (by simp [hw',serves])
  · by_cases hv : v = w
    · rw [hv,hw',hw]
      rfl
    · rw [ho v hv]
  · exact (Option.some.inj (hw' ▸ hf : owns (.requested s.nextFile) = some f)).symm

theorem Core.enqueues {w : Worker} (h : Core files s) (hw : s.workers w = .chosen data) :
    Frame files s w ((addToQueue data s).setWorker w (.sending data)) := by
  have ho : ∀ v, v ≠ w → ((addToQueue data s).setWorker w (.sending data)).workers v = s.workers v :=
    fun v hv => Function.update_of_ne hv _ _
  have hw' : ((addToQueue data s).setWorker w (.sending data)).workers w = .sending data :=
    Function.update_self _ _ _
  refine .of_same (evicted_nil (by simp [hw]) (by simp [hw])) (fun _ => Iff.rfl) rfl ho
    (h.access.keep rfl rfl ho (by simp [hw]) (by simp [hw']))
    (h.announced.add rfl ho (by simp [hw,announces]) (by simp [hw',announces]))
    (by simp [hw',owns]) le_rfl (fun f hf => .inl ?_)
  simpa [hw',hw,serves] using hf

theorem Core.withdraws {w : Worker} {foundFile : Entry} {q : List Entry} (h : Core files s)
    (hw : s.workers w = .sent data) (hq : removeFromQueue files data s.inflightQ = some (foundFile,q)) :
    Frame files s w ({ s with inflightQ := q }.setWorker w (.signalling foundFile)) := by
  have ho : ∀ v, v ≠ w → ({ s with inflightQ := q }.setWorker w
      (.signalling foundFile)).workers v = s.workers v := fun v hv => Function.update_of_ne hv _ _
  have hw' : ({ s with inflightQ := q }.setWorker w (.signalling foundFile)).workers w =
      .signalling foundFile := Function.update_self _ _ _
  exact .of_same (evicted_nil (by simp [hw]) (by simp [hw])) (fun _ => Iff.rfl) rfl ho
    (h.access.keep rfl rfl ho (by simp [hw]) (by simp [hw']))
    (h.announced.remove hq ho (by simp [hw,announces]) (by simp [hw',announces]))
    (by simp [hw',owns]) le_rfl (by simp [hw',serves])

/-- A file that is too large for the cache is sent all the same. -/
theorem Core.keepsOwn {w : Worker} (h : Core files s) (hv : evicted files s w = [])
    (hn : s.cacheAccess = none) (hw : owns (s.workers w) = some data)
    (ha : announces (s.workers w) = none) (hc : Ready files s.cache) :
    Frame files s w ({ s with cache := s.cache, cacheAccess := none }.setWorker w (.chosen data)) := by
  have ho : ∀ v, v ≠ w → ({ s with cache := s.cache, cacheAccess := none }.setWorker w
      (.chosen data)).workers v = s.workers v := fun v hv => Function.update_of_ne hv _ _
  have hw' : ({ s with cache := s.cache, cacheAccess := none }.setWorker w (.chosen data)).workers w =
      .chosen data := Function.update_self _ _ _
  refine .of_same hv (fun _ => Iff.rfl) rfl ho (h.access.free hn hc rfl ho (by simp [hw']))
    (h.announced.keep rfl fun v => ?_) (by simp [hw',owns]) le_rfl fun f hf => ?_
  · by_cases hv : v = w
    · rw [hv,hw',ha]
      rfl
    · rw [ho v hv]
  · obtain rfl : data = f := by simpa [hw',serves] using hf
    exact .inr (.inl hw)

theorem firstSection_frame {w : Worker} (h : Core files s) (hn : s.cacheAccess = none)
    (hw : s.workers w = .requested data) : Frame files s w (firstSection files w data s) := by
  have hv : evicted files s w = [] := evicted_nil (by simp [hw]) (by simp [hw])
  have hl := lookupFile_looked files data s.cache
  unfold firstSection
  generalize lookupFile files data s.cache = r at hl ⊢
  cases hl with
  | miss =>
    exact h.moves (by simp [hw]) (by simp [hw]) (by simp) (by simp [hw,owns]) (by simp [serves])
      (by simp [hw,announces])
  | hit file l hp _ hf =>
    cases file with
    | none => exact h.stops hv _
    | some file => exact h.hit hv hn (by simp [hw,announces]) hp (hf file rfl)

theorem freed_removed {c' : Cache} {vs : List File} (h : c'.removals = removed vs ++ c.removals)
    (f : File) : Freed c' f ↔ Freed c f ∨ f ∈ vs := by
  simp only [Freed,h,removed,List.mem_append,List.mem_reverse,List.mem_map]
  constructor
  · rintro ⟨r,⟨g,hg,rfl⟩ | hr,hf⟩
    · obtain rfl : g = f := by simpa using hf
      exact .inr hg
    · exact .inl ⟨r,hr,hf⟩
  · rintro (⟨r,hr,hf⟩ | hf)
    · exact ⟨r,.inr hr,hf⟩
    · exact ⟨⟨f,some f⟩,.inl ⟨f,hf,rfl⟩,rfl⟩

/-- The end of `cache_insert`, or its next wait, after the removal of the evicted files. The
cache `b` is the one before the first of them left the list. -/
theorem Core.leaves {w : Worker} {p : Progress} {freedEntries : List Entry} {b : Cache}
    (h : Core files s) (hw : owns (s.workers w) = some data) (ha : announces (s.workers w) = none)
    (hacc : ∀ v, v ≠ w → ∀ data elem entry, s.workers v ≠ .evicting data elem entry)
    (ht : (table s.cache).Perm b.lruPolicy) (hr₀ : b.removals = s.cache.removals)
    (h₀ : b.lruPolicy.Nodup)
    (hc : Cleared files s.inflightQ data b (evicted files s w) p) :
    Frame files s w (leaveInsert files w data p { s with freedEntries := freedEntries }) := by
  have hmem : ∀ f, f ∈ table s.cache ↔ f ∈ b.lruPolicy := fun f => ht.mem_iff
  have hdata := (h.own w data hw).2.1
  cases hc with
  | returns inserted c' rest hl hrep hrm hl' =>
    have ho : ∀ v, v ≠ w → (leaveInsert files w data (.returns inserted c')
        { s with freedEntries := freedEntries }).workers v = s.workers v :=
      fun v hv => Function.update_of_ne hv _ _
    have hw' : (leaveInsert files w data (.returns inserted c')
        { s with freedEntries := freedEntries }).workers w = .chosen data := Function.update_self _ _ _
    obtain ⟨_,_,hdisj⟩ := List.nodup_append.mp (hl ▸ h₀)
    have hev : ∀ f ∈ evicted files s w, f ∈ table s.cache := fun f hf => by
      rw [hmem,hl]
      exact List.mem_append_left _ hf
    refine ⟨ho,⟨.inl ⟨rfl,.inl hrep⟩,fun v d e en hv => ?_⟩,freed_removed (hr₀ ▸ hrm),hev,
      fun f hf => ?_,by simp [hw',owns],le_rfl,fun f hf => ?_,h.announced.keep rfl fun v => ?_⟩
    · by_cases hvw : v = w
      · rw [hvw,hw'] at hv
        exact absurd hv (by simp)
      · rw [ho v hvw] at hv
        exact absurd hv (hacc v hvw d e en)
    · have hf' : f ∈ rest ∨ f = data := by
        have hfl : f ∈ c'.lruPolicy := hrep.same.mem_iff.mp hf
        rcases hl' with hl' | hl'
        · exact .inl (hl' ▸ hfl)
        · simpa [hl',pushBack] using hfl
      rcases hf' with hf' | rfl
      · refine ⟨fun hfe => hdisj f hfe f hf' rfl,.inl ?_⟩
        rw [hmem,hl]
        exact List.mem_append_right _ hf'
      · exact ⟨fun hfe => hdata (hev f hfe),.inr ⟨hw,by simp [hw',owns]⟩⟩
    · obtain rfl : data = f := by simpa [hw',serves] using hf
      exact .inr (.inl hw)
    · by_cases hv : v = w
      · rw [hv,hw',ha]
        rfl
      · rw [ho v hv]
  | waits elem c' entry hl hrem hrm hq =>
    have he : leaveInsert files w data (.removes elem c') { s with freedEntries := freedEntries } =
        { s with freedEntries := freedEntries, cache := c', cacheAccess := some w }.setWorker w
          (.evicting data elem entry) := by simp only [leaveInsert,hq]
    rw [he]
    have ho : ∀ v, v ≠ w → ({ s with
        freedEntries := freedEntries, cache := c', cacheAccess := some w }.setWorker w
          (.evicting data elem entry)).workers v = s.workers v := fun v hv => Function.update_of_ne hv _ _
    have hw' : ({ s with
        freedEntries := freedEntries, cache := c', cacheAccess := some w }.setWorker w
          (.evicting data elem entry)).workers w = .evicting data elem entry := Function.update_self _ _ _
    obtain ⟨_,_,hdisj⟩ := List.nodup_append.mp (hl ▸ h₀)
    have hev : ∀ f ∈ evicted files s w, f ∈ table s.cache := fun f hf => by
      rw [hmem,hl]
      exact List.mem_append_left _ hf
    refine ⟨ho,⟨.inr ⟨w,data,elem,entry,rfl,hw',hrem⟩,fun v d e en hv => ?_⟩,
      freed_removed (hr₀ ▸ hrm),hev,fun f hf => ?_,fun f hf => ?_,le_rfl,by simp [hw',serves],
      h.announced.keep rfl fun v => ?_⟩
    · by_cases hvw : v = w
      · rw [hvw]
        rfl
      · rw [ho v hvw] at hv
        exact absurd hv (hacc v hvw d e en)
    · have hfl : f ∈ elem::c'.lruPolicy := hrem.holds.same.mem_iff.mp hf
      refine ⟨fun hfe => hdisj f hfe f hfl rfl,.inl ?_⟩
      rw [hmem,hl]
      exact List.mem_append_right _ hfl
    · obtain rfl : data = f := by simpa [hw',owns] using hf
      exact .inl hw
    · by_cases hv : v = w
      · rw [hv,hw',ha]
        rfl
      · rw [ho v hv]

/-- An insertion into a cache without chains. -/
theorem insertStart_unusable (files : File → FileData) (data : File) (h₀ : c.arraySize = 0) :
    insertStart files data c = .returns false c ∨ insertStart files data c = .crashes := by
  cases hs : c.maxSize.slt (files data).fileSize <;>
    simp [insertStart,insertDepth,insertToCache,hs,h₀]

theorem evictions_done {n : ℕ} {p : Progress} (hp : ∀ elem c, p ≠ .removes elem c) :
    evictions files q data n p = p := by
  cases p with
  | removes elem c => exact absurd rfl (hp elem c)
  | returns | crashes => cases n <;> rfl

theorem Access.nobody {w : Worker} (h : Access files s) (hn : s.cacheAccess = none) :
    ∀ v, v ≠ w → ∀ data elem entry, s.workers v ≠ .evicting data elem entry := by
  intro v _ data elem entry hv
  exact absurd (hn.symm.trans (h.holder v data elem entry hv)) (by simp)

/-- The second section, from the insertion on. -/
theorem secondSection_cleared {w : Worker} (hrep : Represents files s.cache)
    (hw : s.workers w = .read data) (hlisted : listed files data s.cache.lruPolicy = false) :
    Cleared files s.inflightQ data s.cache (evicted files s w)
      (evictions files s.inflightQ data s.cache.lruPolicy.length (insertStart files data s.cache)) := by
  have hev : evicted files s w = if listed files data s.cache.lruPolicy = true ∨
      s.cache.maxSize.slt (files data).fileSize = true then []
      else victimsOf files s.inflightQ data s.cache := by simp only [evicted,hw]
  have hadv := insertStart_advance hrep data
  cases hs : s.cache.maxSize.slt (files data).fileSize with
  | true =>
    have hi : insertStart files data s.cache = .returns false s.cache := by
      simp [insertStart,insertDepth,insertToCache,hs]
    rw [hev,if_pos (.inr hs),hi,evictions_done (by simp)]
    exact .returns false s.cache s.cache.lruPolicy rfl hrep rfl (.inl rfl)
  | false =>
    rw [hev,if_neg (by simp [hlisted,hs])]
    exact evictions_cleared hrep hadv hs hlisted le_rfl

theorem secondSection_frame {w : Worker} (h : Core files s) (hn : s.cacheAccess = none)
    (hw : s.workers w = .read data) : Frame files s w (secondSection files w data s) := by
  have hready := h.access.ready hn
  have hl := lookupFile_looked files data s.cache
  unfold secondSection
  generalize lookupFile files data s.cache = r at hl ⊢
  cases hl with
  | hit file l hp hlisted hf =>
    have hv : evicted files s w = [] := by
      simp only [evicted,hw]
      exact if_pos (.inl hlisted)
    cases file with
    | none => exact h.stops hv _
    | some file => exact h.hit hv hn (by simp [hw,announces]) hp (hf file rfl)
  | miss hlisted =>
    have hown : owns (s.workers w) = some data := by simp [hw,owns]
    have hann : announces (s.workers w) = none := by simp [hw,announces]
    rcases hready with hrep | ⟨h₀,hnil⟩
    · exact h.leaves (b := s.cache) hown hann (h.access.nobody hn) hrep.same rfl hrep.once
        (secondSection_cleared hrep hw hlisted)
    · have hv : evicted files s w = [] := by
        simp only [evicted,hw,victimsOf,hnil]
        simp [victims]
      dsimp only
      rcases insertStart_unusable files data h₀ with hi | hi <;>
        rw [hi,evictions_done (by simp)]
      · exact h.keepsOwn hv hn hown hann (.inr ⟨h₀,hnil⟩)
      · exact h.stops hv _

theorem Access.removing {w : Worker} {inFlightFile : Entry} (h : Access files s)
    (hw : s.workers w = .evicting data elem inFlightFile) : Removing files data elem s.cache := by
  have hacc := h.holder w _ _ _ hw
  rcases h.state with ⟨hn,_⟩ | ⟨v,d,e,en,hv,hv',hr⟩
  · exact absurd (hacc.symm.trans hn) (by simp)
  · obtain rfl : w = v := by simpa using hacc.symm.trans hv
    obtain ⟨rfl,rfl,_⟩ : data = d ∧ elem = e ∧ inFlightFile = en := by
      simpa using hw.symm.trans hv'
    exact hr

theorem afterWait_cleared {w : Worker} {inFlightFile : Entry} (hrem : Removing files data elem s.cache)
    (hw : s.workers w = .evicting data elem inFlightFile) (hq : inFlightFile ∉ s.inflightQ) :
    Cleared files s.inflightQ data { s.cache with lruPolicy := elem::s.cache.lruPolicy }
      (evicted files s w) (evictions files s.inflightQ data (s.cache.lruPolicy.length+1)
        (.removes elem s.cache)) := by
  have hev : evicted files s w =
      if inFlightFile ∈ s.inflightQ ∨ (isInFlight files s.inflightQ elem).isSome = true then []
      else elem::victims files s.inflightQ data s.cache.maxSize
        (s.cache.currSize-(files elem).fileSize) s.cache.lruPolicy := by simp only [evicted,hw]
  cases hf : isInFlight files s.inflightQ elem with
  | some entry =>
    rw [hev,if_pos (.inr (by simp [hf]))]
    simp only [evictions,hf]
    exact .waits elem s.cache entry rfl hrem rfl hf
  | none =>
    obtain ⟨_,hl,_,hc⟩ := hrem.holds.remove
    have hs : (removeFromCache files elem s.cache).maxSize.slt (files data).fileSize = false := by
      rw [removeFromCache_maxSize]
      exact hrem.allowed
    have hcl := evictions_cleared (q := s.inflightQ) hrem.represents hrem.insertNext_advance hs
      hrem.absent_tail (le_of_eq (congrArg List.length hl))
    have hvs : evicted files s w = elem::victimsOf files s.inflightQ data
        (removeFromCache files elem s.cache) := by
      rw [hev,if_neg (by simp [hq,hf]),victimsOf,hl,hc,removeFromCache_maxSize]
    rw [hvs]
    simp only [evictions,hf]
    exact hcl.cons hrem rfl rfl

theorem afterWait_frame {w : Worker} {inFlightFile : Entry} (h : Core files s)
    (hw : s.workers w = .evicting data elem inFlightFile) :
    Frame files s w (afterWait files w data elem inFlightFile s) := by
  have hacc := h.access.holder w _ _ _ hw
  have hrem := h.access.removing hw
  unfold afterWait
  split
  · rename_i hq
    refine h.stops ?_ _
    simp only [evicted,hw]
    exact if_pos (.inl hq)
  · rename_i hq
    have hnobody : ∀ v, v ≠ w → ∀ data elem entry, s.workers v ≠ .evicting data elem entry := by
      intro v hv d e en hv'
      exact hv (by simpa using (h.access.holder v d e en hv').symm.trans hacc)
    exact h.leaves (b := { s.cache with lruPolicy := elem::s.cache.lruPolicy })
      (by simp [hw,owns]) (by simp [hw,announces]) hnobody hrem.holds.same rfl hrem.holds.once
      (afterWait_cleared hrem hw hq)

theorem runWorker_frame {w : Worker} (h : Core files s) (hst : runWorker files w s = some s') :
    Frame files s w s' := by
  unfold runWorker at hst
  split at hst
  · rename_i hw
    obtain rfl := Option.some.inj hst
    exact h.requests hw
  · rename_i data hw
    split at hst
    · rename_i hn
      obtain rfl := Option.some.inj hst
      exact firstSection_frame h hn hw
    · exact absurd hst (by simp)
  · rename_i data hw
    obtain rfl := Option.some.inj hst
    exact h.moves (by simp [hw]) (by simp [hw]) (by simp) (by simp [hw,owns]) (by simp [serves])
      (by simp [hw,announces])
  · rename_i data hw
    split at hst
    · rename_i hn
      obtain rfl := Option.some.inj hst
      exact secondSection_frame h hn hw
    · exact absurd hst (by simp)
  · rename_i data elem inFlightFile hw
    obtain rfl := Option.some.inj hst
    exact afterWait_frame h hw
  · rename_i data hw
    obtain rfl := Option.some.inj hst
    exact h.enqueues hw
  · rename_i data hw
    obtain rfl := Option.some.inj hst
    exact h.moves (by simp [hw]) (by simp [hw]) (by simp) (by simp [owns]) (by simp [hw,serves])
      (by simp [hw,announces])
  · rename_i data hw
    cases hq : removeFromQueue files data s.inflightQ with
    | none =>
      rw [hq] at hst
      obtain rfl := Option.some.inj hst
      exact h.stops (evicted_nil (by simp [hw]) (by simp [hw])) _
    | some r =>
      obtain ⟨foundFile,q⟩ := r
      rw [hq] at hst
      obtain rfl := Option.some.inj hst
      exact h.withdraws hw hq
  · rename_i foundFile hw
    split at hst
    · obtain rfl := Option.some.inj hst
      exact h.stops (evicted_nil (by simp [hw]) (by simp [hw])) _
    · obtain rfl := Option.some.inj hst
      exact h.moves (by simp [hw]) (by simp [hw]) (by simp) (by simp [owns]) (by simp [serves])
        (by simp [hw,announces])

theorem failWorker_frame {w : Worker} (h : Core files s) (hst : failWorker w s = some s') :
    evicted files s w = [] ∧ Frame files s w s' := by
  unfold failWorker at hst
  split at hst
  · rename_i hw
    have hv : evicted files s w = [] := evicted_nil (by simp [hw]) (by simp [hw])
    obtain rfl := Option.some.inj hst
    exact ⟨hv,.of_same hv (fun _ => Iff.rfl) rfl (fun _ _ => rfl) ⟨h.access.state,h.access.holder⟩
      h.announced (fun _ hf => .inl hf) (Nat.le_succ _) (fun _ hf => .inl hf)⟩
  · rename_i data hw
    obtain rfl := Option.some.inj hst
    exact ⟨evicted_nil (by simp [hw]) (by simp [hw]),
      h.moves (by simp [hw]) (by simp [hw]) (by simp) (by simp [owns]) (by simp [serves])
        (by simp [hw,announces])⟩
  · exact absurd hst (by simp)

theorem serves_none {w : Worker} {f : File} (hf : f ∈ evicted files s w) :
    serves (s.workers w) = none := by
  unfold evicted at hf
  split at hf
  · rename_i hw
    rw [hw]
    rfl
  · rename_i hw
    rw [hw]
    rfl
  · simp at hf

/-- The evicted files are not in flight. -/
theorem evicted_not_inFlight {w : Worker} {f : File} (hf : f ∈ evicted files s w) :
    isInFlight files s.inflightQ f = none := by
  unfold evicted at hf
  split at hf
  · split at hf
    · simp at hf
    · exact victims_not_inFlight hf
  · split at hf
    · simp at hf
    · rename_i hn
      rcases List.mem_cons.mp hf with rfl | hf
      · simpa using (not_or.mp hn).2
      · exact victims_not_inFlight hf
  · simp at hf

/-- A file that nobody has chosen without announcing it is evicted while nobody uses it. -/
theorem Core.unserved {w v : Worker} {f : File} (h : Core files s) (hf : f ∈ evicted files s w)
    (hc : s.workers v ≠ .chosen f) : serves (s.workers v) ≠ some f := by
  intro hs
  have ha : announces (s.workers v) = some f := by
    cases hv : s.workers v with
    | chosen data =>
      obtain rfl : data = f := by simpa [hv,serves] using hs
      exact absurd hv hc
    | sending data | sent data => simpa [hv,serves,announces] using hs
    | _ => simp [hv,serves] at hs
  exact h.announced.inFlight ha (evicted_not_inFlight hf)

theorem step_inv {a : ServerModel.Action} (h : Inv files s) (hu : Undisturbed files s a)
    (hst : ServerModel.step files s a = some s') : Inv files s' := by
  unfold ServerModel.step at hst
  split at hst
  · exact absurd hst (by simp)
  · cases a with
    | run w =>
      exact h.frame (runWorker_frame h.toCore hst) fun v f hf => h.unserved hf (hu w rfl f hf v)
    | fail w =>
      obtain ⟨hv,hf⟩ := failWorker_frame h.toCore hst
      exact h.frame hf (by simp [hv])

/-- A step that evicts a chosen file leaves its worker with a freed file. -/
theorem undisturbed_of_safe {a : ServerModel.Action} (h : Core files s)
    (hst : ServerModel.step files s a = some s') (hs : Safe s') : Undisturbed files s a := by
  rintro w rfl f hf v hv
  unfold ServerModel.step at hst
  split at hst
  · exact absurd hst (by simp)
  · have hfr := runWorker_frame h hst
    have hvw : v ≠ w := by
      rintro rfl
      have hn := serves_none hf
      rw [hv] at hn
      simp [serves] at hn
    exact hs v f (by rw [hfr.others v hvw,hv]; rfl) ((hfr.freed f).mpr (.inr hf))

theorem serverInit_inv {maxCacheSize : BitVec 32} (h : 0 < maxCacheSize.toInt) :
    Inv files (serverInit maxCacheSize) := by
  have hnil : table (initCache maxCacheSize) = [] := by simp [table,initCache]
  refine ⟨⟨⟨.inl ⟨rfl,?_⟩,by simp [serverInit]⟩,by simp [serverInit,hnil],?_,
    by simp [serverInit,owns],by simp [serverInit,owns],
    ⟨[],by simp,by simp [serverInit,announces],by simp [serverInit]⟩⟩,
    by simp [Safe,serverInit,serves]⟩
  · by_cases hz : (initCache maxCacheSize).arraySize = 0
    · exact .inr ⟨hz,rfl⟩
    · refine .inl (initCache_represents (lt_of_le_of_ne ?_ (Ne.symm hz)))
      exact mul_nonneg (by decide) (Int.tdiv_nonneg h.le (by decide))
  · rintro f ⟨r,hr,_⟩
    simp [serverInit,initCache] at hr

/-- In the runs in which no step evicts a file between its choice and its announcement, no
worker ever uses a freed file; and the first step that is not like that leaves some worker
with a freed file. -/
theorem served_files_kept {maxCacheSize : BitVec 32} (hpos : 0 < maxCacheSize.toInt)
    (h : Reachable (serverInit maxCacheSize) (ServerModel.step files) (Undisturbed files) s) :
    Safe s ∧ ∀ a s', ServerModel.step files s a = some s' → (Safe s' ↔ Undisturbed files s a) := by
  have hinv : Inv files s := h.invariant (serverInit_inv hpos) fun _ _ _ hi hu hst => step_inv hi hu hst
  exact ⟨hinv.safe,fun a s' hst =>
    ⟨undisturbed_of_safe hinv.toCore hst,fun hu => (step_inv hinv hu hst).safe⟩⟩

/-- Worker 0 sends the first file while worker 1 has to evict it: worker 1 waits. -/
def sendWhileEvicting : List ServerModel.Action :=
  [.run 0,.run 0,.run 0,.run 0,.run 0,.run 1,.run 1,.run 1,.run 1]

def afterSendWhileEvicting : Server :=
  final (ServerModel.step threeFiles) sendWhileEvicting (serverInit 4096) (by decide +kernel)

/-- A test that allows the steps without evictions. -/
def evictsNothing (files : File → FileData) (s : Server) : ServerModel.Action → Bool
  | .run w => evicted files s w = []
  | .fail _ => true

theorem undisturbed_of_evictsNothing (s : Server) (a : ServerModel.Action)
    (h : evictsNothing files s a = true) : Undisturbed files s a := by
  rintro w rfl f hf
  have hn : evicted files s w = [] := by simpa [evictsNothing] using h
  simp [hn] at hf

theorem afterSendWhileEvicting_safe :
    afterSendWhileEvicting.workers 1 = .evicting 1 0 ⟨0,0⟩ ∧ Safe afterSendWhileEvicting :=
  ⟨by decide +kernel,(served_files_kept (by decide)
    (reachable_final_of_checked undisturbed_of_evictsNothing .init (by decide +kernel))).1⟩

/-- Worker 1 evicts the first file before worker 0 has announced it. -/
def evictBeforeSend : List ServerModel.Action :=
  [.run 0,.run 0,.run 0,.run 0,.run 1,.run 1,.run 1,.run 1]

def afterEvictBeforeSend : Server :=
  final (ServerModel.step threeFiles) evictBeforeSend (serverInit 4096) (by decide +kernel)

theorem evictBeforeSend_frees_chosen :
    Reachable (serverInit 4096) (ServerModel.step threeFiles) (fun _ _ => True) afterEvictBeforeSend ∧
      ¬ Safe afterEvictBeforeSend := by
  refine ⟨reachable_final .init fun _ _ _ => trivial,fun h => h 0 0 (by decide +kernel) ?_⟩
  exact ⟨⟨0,some 0⟩,by decide +kernel,rfl⟩

end ServedFiles
end OsLabs

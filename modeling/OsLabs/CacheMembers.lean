import OsLabs.ServedFiles

/-!
# Files that enter the cache and leave it

A file that is not in the cache and not too large for it is in the cache when its insertion
returns, and a file stays in the cache until a step evicts it.
-/

namespace OsLabs
namespace CacheMembers

open CacheModel CacheInvariant ServerModel ServedFiles

variable {files : File → FileData} {s s' : Server} {c : Cache} {data elem : File} {q : List Entry}
  {w : Worker}

/-! ### Insertions -/

/-- If the insertion returns, the file is in the cache. -/
def Inserts (data : File) (p : Progress) : Prop :=
  ∀ inserted c, p = .returns inserted c → data ∈ c.lruPolicy

theorem evictLoop_inserts {insert : Cache → Progress} (h : Inserts data (insert c)) :
    Inserts data (evictLoop files data insert c) := by
  unfold evictLoop
  split
  · exact h
  · split
    · exact h
    · split
      · exact fun _ _ he => Progress.noConfusion he
      · exact fun _ _ he => Progress.noConfusion he

theorem insertToCache_inserts (h : Represents files c)
    (hs : c.maxSize.slt (files data).fileSize = false) (hn : listed files data c.lruPolicy = false)
    (n : ℕ) : Inserts data (insertToCache files data n c) := by
  have hadd : ∀ c' : Cache, c'.lruPolicy = pushBack data c.lruPolicy →
      Inserts data (.returns true c') := by
    intro c' hl inserted c'' he
    obtain ⟨-,rfl⟩ := Progress.returns.inj he
    rw [hl]
    exact List.mem_append_right _ (List.mem_singleton_self data)
  induction n with
  | zero => exact fun _ _ he => Progress.noConfusion he
  | succ n ih =>
    have hany := h.any_chain data
    unfold insertToCache
    rw [if_neg (by rw [hs]; simp),if_neg h.positive.ne']
    dsimp only
    split
    · split
      · exact hadd _ rfl
      · exact evictLoop_inserts ih
    · split
      · rename_i hchain
        exact Bool.noConfusion (hn.symm.trans (hany.symm.trans hchain))
      · split
        · exact hadd _ rfl
        · exact evictLoop_inserts ih

theorem evictions_inserts {n : ℕ} {p : Progress} (hp : Inserts data p)
    (hr : ∀ elem c, p = .removes elem c → Removing files data elem c) :
    Inserts data (evictions files q data n p) := by
  induction n generalizing p with
  | zero => exact hp
  | succ n ih =>
    cases p with
    | returns | crashes => exact hp
    | removes elem c =>
      simp only [evictions]
      split
      · exact hp
      · have hrem := hr elem c rfl
        have hs : (removeFromCache files elem c).maxSize.slt (files data).fileSize = false := by
          rw [removeFromCache_maxSize]
          exact hrem.allowed
        refine ih ?_ fun elem' c' he => ?_
        · exact evictLoop_inserts
            (insertToCache_inserts hrem.represents hs hrem.absent_tail insertDepth)
        · have hadv := hrem.insertNext_advance
          rw [he] at hadv
          exact (Advance.removing hrem.represents hadv).1

/-! ### The cache after a section -/

/-- `cache_insert` loses no file that it does not evict. -/
theorem leaveInsert_kept {p : Progress} {vs : List File} {b : Cache} {freedEntries : List Entry}
    (ht : (table s.cache).Perm b.lruPolicy) (hc : Cleared files s.inflightQ data b vs p) :
    ∀ f ∈ table s.cache,
      f ∈ table (leaveInsert files w data p { s with freedEntries := freedEntries }).cache ∨ f ∈ vs := by
  intro f hf
  have hfb := ht.mem_iff.mp hf
  cases hc with
  | returns inserted c' rest hl hrep _ hl' =>
    rw [hl] at hfb
    rcases List.mem_append.mp hfb with hv | hr
    · exact .inr hv
    · refine .inl (hrep.same.mem_iff.mpr ?_)
      rcases hl' with hl' | hl'
      · exact hl' ▸ hr
      · rw [hl']
        exact List.mem_append_left _ hr
  | waits elem c' entry hl hrem _ hq =>
    rw [hl] at hfb
    simp only [leaveInsert,hq]
    rcases List.mem_append.mp hfb with hv | hr
    · exact .inr hv
    · exact .inl (hrem.holds.same.mem_iff.mpr hr)

/-- Where the worker stands behind `cache_insert`. -/
inductive Left (s : Server) (w : Worker) (data : File) (s' : Server) : Prop
  | inserted (hw : s'.workers w = .chosen data) (ht : data ∈ table s'.cache)
  | waits (elem : File) (entry : Entry) (hw : s'.workers w = .evicting data elem entry)
  | crashed (hw : s'.workers = s.workers)

theorem leaveInsert_left {p : Progress} {vs : List File} {b : Cache} {freedEntries : List Entry}
    (hc : Cleared files s.inflightQ data b vs p) (hi : Inserts data p) :
    Left s w data (leaveInsert files w data p { s with freedEntries := freedEntries }) := by
  cases hc with
  | returns inserted c' rest _ hrep _ _ =>
    exact .inserted (Function.update_self ..) (hrep.same.mem_iff.mpr (hi inserted c' rfl))
  | waits elem c' entry _ _ _ hq =>
    simp only [leaveInsert,hq]
    exact .waits elem entry (Function.update_self ..)

theorem lookupFile_miss (h : listed files data c.lruPolicy = false) :
    lookupFile files data c = (none,c) := by
  have hl := lookupFile_looked files data c
  generalize lookupFile files data c = r at hl ⊢
  cases hl with
  | miss => rfl
  | hit _ _ _ hlisted => exact absurd (h.symm.trans hlisted) (by simp)

/-- A lookup in a list with the name finds a file with the name. -/
theorem lookupFile_hit (h : listed files data c.lruPolicy = true) :
    ∃ file l, lookupFile files data c = (some (some file),{ c with lruPolicy := l }) ∧
      c.lruPolicy.Perm l ∧ file ∈ l ∧ sameName files file data = true := by
  unfold lookupFile cacheLookup
  cases hr : removeFileToBeMovedToBack files data c.lruPolicy with
  | none => exact absurd (h.symm.trans (removeFileToBeMovedToBack_none hr)) (by simp)
  | some r =>
    obtain ⟨info,l⟩ := r
    obtain ⟨hp,hn⟩ := removeFileToBeMovedToBack_some hr
    obtain ⟨file,hfind⟩ : ∃ file, getCachedFile files data (pushBack info l) = some file := by
      refine Option.isSome_iff_exists.mp (List.find?_isSome.mpr ⟨info,?_,hn⟩)
      exact List.mem_append_right _ (List.mem_singleton_self info)
    refine ⟨file,pushBack info l,?_,hp.trans (List.perm_append_singleton info l).symm,
      List.mem_of_find?_eq_some hfind,List.find?_some (p := (sameName files · data)) hfind⟩
    simp only [if_true,hfind]

/-- The second section without a hit, for a file that is not too large. -/
theorem secondSection_left (h : Core files s) (hn : s.cacheAccess = none)
    (hw : s.workers w = .read data) (hlisted : listed files data s.cache.lruPolicy = false)
    (hs : s.cache.maxSize.slt (files data).fileSize = false) :
    Left s w data (secondSection files w data s) := by
  unfold secondSection
  rw [lookupFile_miss hlisted]
  rcases h.access.ready hn with hrep | ⟨h₀,-⟩
  · refine leaveInsert_left (secondSection_cleared hrep hw hlisted) ?_
    refine evictions_inserts (insertToCache_inserts hrep hs hlisted insertDepth) fun elem c he => ?_
    have hadv := insertStart_advance hrep data
    rw [he] at hadv
    exact (Advance.removing hrep hadv).1
  · have hi : insertStart files data s.cache = .crashes := by
      simp [insertStart,insertDepth,insertToCache,hs,h₀]
    dsimp only
    rw [hi,evictions_done (by simp)]
    exact .crashed rfl

/-- A file that is too large leaves the cache as it is. -/
theorem secondSection_tooLarge (hlisted : listed files data s.cache.lruPolicy = false)
    (hs : s.cache.maxSize.slt (files data).fileSize = true) :
    secondSection files w data s = { s with cacheAccess := none }.setWorker w (.chosen data) := by
  have hi : insertStart files data s.cache = .returns false s.cache := by
    simp [insertStart,insertDepth,insertToCache,hs]
  unfold secondSection
  rw [lookupFile_miss hlisted]
  dsimp only
  rw [hi,evictions_done (by simp)]
  rfl

theorem afterWait_left {inFlightFile : Entry} (h : Core files s)
    (hw : s.workers w = .evicting data elem inFlightFile) :
    Left s w data (afterWait files w data elem inFlightFile s) := by
  have hrem := h.access.removing hw
  unfold afterWait
  split
  · exact .crashed rfl
  · rename_i hq
    refine leaveInsert_left (afterWait_cleared hrem hw hq) (evictions_inserts ?_ fun e c he => ?_)
    · exact fun _ _ he => Progress.noConfusion he
    · obtain ⟨rfl,rfl⟩ := Progress.removes.inj he
      exact hrem

/-- A file leaves the cache only when the step evicts it. -/
theorem runWorker_kept (h : Core files s) (hst : runWorker files w s = some s') :
    ∀ f ∈ table s.cache, f ∈ table s'.cache ∨ f ∈ evicted files s w := by
  have hsame : table s'.cache = table s.cache →
      ∀ f ∈ table s.cache, f ∈ table s'.cache ∨ f ∈ evicted files s w :=
    fun he f hf => .inl (he ▸ hf)
  unfold runWorker at hst
  split at hst
  · obtain rfl := Option.some.inj hst
    exact hsame rfl
  · rename_i data hw
    obtain ⟨-,hst⟩ := Option.ite_none_right_eq_some.mp hst
    obtain rfl := Option.some.inj hst
    refine hsame ?_
    have hl := lookupFile_looked files data s.cache
    unfold firstSection
    generalize lookupFile files data s.cache = r at hl ⊢
    cases hl with
    | miss => rfl
    | hit file => cases file <;> rfl
  · obtain rfl := Option.some.inj hst
    exact hsame rfl
  · rename_i data hw
    obtain ⟨hn,hst⟩ := Option.ite_none_right_eq_some.mp hst
    obtain rfl := Option.some.inj hst
    cases hlisted : listed files data s.cache.lruPolicy with
    | true =>
      refine hsame ?_
      obtain ⟨file,l,hl,-⟩ := lookupFile_hit hlisted
      unfold secondSection
      rw [hl]
      rfl
    | false =>
      rcases h.access.ready hn with hrep | ⟨h₀,-⟩
      · unfold secondSection
        rw [lookupFile_miss hlisted]
        exact leaveInsert_kept hrep.same (secondSection_cleared hrep hw hlisted)
      · refine hsame ?_
        unfold secondSection
        rw [lookupFile_miss hlisted]
        dsimp only
        rcases insertStart_unusable files data h₀ with hi | hi <;>
          rw [hi,evictions_done (by simp)] <;> rfl
  · rename_i data elem inFlightFile hw
    obtain rfl := Option.some.inj hst
    have hrem := h.access.removing hw
    unfold afterWait
    split
    · exact fun f hf => .inl hf
    · rename_i hq
      exact leaveInsert_kept hrem.holds.same (afterWait_cleared hrem hw hq)
  · obtain rfl := Option.some.inj hst
    exact hsame rfl
  · obtain rfl := Option.some.inj hst
    exact hsame rfl
  · split at hst
    · obtain rfl := Option.some.inj hst
      exact hsame rfl
    · obtain rfl := Option.some.inj hst
      exact hsame rfl
  · split at hst
    · obtain rfl := Option.some.inj hst
      exact hsame rfl
    · obtain rfl := Option.some.inj hst
      exact hsame rfl

end CacheMembers
end OsLabs

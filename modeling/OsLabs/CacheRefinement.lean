import OsLabs.BoundedLru
import OsLabs.CacheInvariant

/-!
# The cache is a bounded map with least-recently-used eviction

As long as the sum in the test for enough room does not overflow, every call of `cache_lookup` and
`cache_insert` agrees with the reference cache of `BoundedLru`, and `curr_size` stays within the
limit. A sum that does overflow is negative, passes the test and breaks the limit.
-/

namespace OsLabs
namespace CacheRefinement

open CacheModel CacheInvariant Transition BoundedLru

variable {files : File → FileData} {c : Cache} {l : List File} {data elem : File}

def name (files : File → FileData) (f : File) : FileName := (files f).fileName

def size (files : File → FileData) (f : File) : ℤ := (files f).fileSize.toInt

/-- The largest `int`. -/
def intMax : ℤ := 2^31-1

/-- `insert_to_cache` refuses the file. -/
def Refused (files : File → FileData) (data : File) (c : Cache) : Prop :=
  c.maxSize.toInt < size files data ∨ ∃ f ∈ c.lruPolicy, name files f = name files data

/-! ### Insertion, call by call -/

/-- The cache with the new file in its chain and at the end of the list. -/
def added (files : File → FileData) (data : File) (c : Cache) : Cache :=
  { c with
    mapping := Function.update c.mapping (bucket c.arraySize (files data).fileName)
      (c.mapping (bucket c.arraySize (files data).fileName) ++ [data])
    currSize := c.currSize+(files data).fileSize
    lruPolicy := pushBack data c.lruPolicy }

/-- An insertion that is not refused adds the file or evicts the first one of the list. -/
def outcome (files : File → FileData) (data : File) (c : Cache) : Progress :=
  if fits files data c then .returns true (added files data c)
  else match c.lruPolicy with
    | [] => .crashes
    | elem::l => .removes elem { c with lruPolicy := l }

theorem not_refused_iff : ¬ Refused files data c ↔
    c.maxSize.slt (files data).fileSize = false ∧ listed files data c.lruPolicy = false := by
  simp only [Refused,not_or,not_exists,not_and,listed,List.any_eq_false,sameName,name,size,
    BitVec.slt_eq_decide]
  simp

theorem insertToCache_eq (h : Represents files c) (hr : ¬ Refused files data c) (n : ℕ) :
    insertToCache files data (n+1) c = if fits files data c then .returns true (added files data c)
      else evictLoop files data (insertToCache files data n) c := by
  obtain ⟨hs,hn⟩ := not_refused_iff.mp hr
  have hpos := h.positive.ne'
  have hany := h.any_chain data
  rw [listed] at hn
  rw [hn] at hany
  rw [insertToCache]
  simp only [hs,hpos,if_false,Bool.false_eq_true]
  split
  · rename_i hc
    simp only [added,hc,List.nil_append]
  · simp only [hany,Bool.false_eq_true,if_false,added]

theorem evictLoop_eq (h : Represents files c) (hr : ¬ Refused files data c) (n : ℕ) :
    evictLoop files data (insertToCache files data (n+1)) c = outcome files data c := by
  rw [evictLoop,outcome]
  by_cases hf : fits files data c = true
  · rw [if_pos hf,if_pos hf,insertToCache_eq h hr,if_pos hf]
  · rw [if_neg hf,if_neg hf]
    obtain ⟨hs,-⟩ := not_refused_iff.mp hr
    have h₀ : c.currSize ≠ 0 := fun h₀ => hf (fits_of_currSize_zero hs h₀)
    rw [if_neg h₀]
    cases c.lruPolicy with
    | nil => rfl
    | cons elem l => rfl

theorem insertStart_eq (h : Represents files c) (hr : ¬ Refused files data c) :
    insertStart files data c = outcome files data c := by
  rw [insertStart,insertDepth,insertToCache_eq h hr,evictLoop_eq h hr,outcome]
  split <;> rfl

theorem insertStart_refused (h : Represents files c) (hr : Refused files data c) :
    insertStart files data c = .returns false c := by
  have hpos := h.positive.ne'
  have hany := h.any_chain data
  rw [insertStart,insertDepth,insertToCache]
  cases hs : c.maxSize.slt (files data).fileSize with
  | true => simp
  | false =>
    have hl : c.lruPolicy.any (sameName files · data) = true := by
      by_contra hl
      exact not_refused_iff.mpr ⟨hs,by simpa [listed] using hl⟩ hr
    rw [hl] at hany
    simp only [hpos,if_false,Bool.false_eq_true]
    split
    · rename_i hc
      simp [hc] at hany
    · simp only [hany,if_true]

/-! ### Machine arithmetic -/

theorem toInt_add {x y : BitVec 32} (hx : 0 ≤ x.toInt) (hy : 0 ≤ y.toInt)
    (h : x.toInt+y.toInt ≤ intMax) : (x+y).toInt = x.toInt+y.toInt := by
  rw [BitVec.toInt_add]
  simp only [intMax] at h
  exact Int.bmod_eq_of_le (by omega) (by omega)

/-- A sum that overflows is negative. -/
theorem toInt_add_overflow {x y : BitVec 32} (hx : 0 ≤ x.toInt) (hy : 0 ≤ y.toInt)
    (h : intMax < x.toInt+y.toInt) : (x+y).toInt < 0 := by
  rw [BitVec.toInt_add]
  simp only [intMax] at h
  have hx' := BitVec.toInt_lt (x := x)
  have hy' := BitVec.toInt_lt (x := y)
  simp only [Int.bmod]
  norm_num at hx' hy' ⊢
  omega

theorem toInt_sum (hs : ∀ f, 0 ≤ size files f) (h : total (size files) l ≤ intMax) :
    ((l.map fun f => (files f).fileSize).sum).toInt = total (size files) l := by
  induction l with
  | nil => rfl
  | cons f l ih =>
    have hf := hs f
    have hl := total_nonneg hs l
    rw [total_cons] at h ⊢
    have ih := ih (by omega)
    rw [List.map_cons,List.sum_cons,toInt_add hf (by omega) (by rw [ih]; exact h),ih]
    rfl

/-- `curr_size` is the true sum of the sizes as long as that is an `int`. -/
theorem currSize_toInt (h : Represents files c) (hs : ∀ f, 0 ≤ size files f)
    (hl : total (size files) c.lruPolicy ≤ intMax) : c.currSize.toInt = total (size files) c.lruPolicy := by
  rw [h.total]
  exact toInt_sum hs hl

theorem fits_iff (h : Represents files c) (hs : ∀ f, 0 ≤ size files f)
    (hl : total (size files) c.lruPolicy+size files data ≤ intMax) :
    fits files data c = true ↔ total (size files) c.lruPolicy+size files data ≤ c.maxSize.toInt := by
  have hd := hs data
  have ht := total_nonneg hs c.lruPolicy
  have hc := currSize_toInt h hs (by omega)
  rw [fits,BitVec.sle_iff_toInt_le,toInt_add (by omega) hd (by rw [hc]; exact hl),hc]
  rfl

theorem finishInsert_returns (n : ℕ) (inserted : Bool) (c : Cache) :
    finishInsert files data n (.returns inserted c) = some (inserted,c) := by
  cases n <;> rfl

theorem added_represents (h : Represents files c) (hr : ¬ Refused files data c) :
    Represents files (added files data c) := h.add (not_refused_iff.mp hr).2

theorem removing_of_cons (h : Represents files c) (hr : ¬ Refused files data c)
    (hl : c.lruPolicy = elem::l) : Removing files data elem { c with lruPolicy := l } := by
  obtain ⟨hs,hn⟩ := not_refused_iff.mp hr
  have h' : Holds files c (elem::l) := hl ▸ h
  exact ⟨⟨h'.positive,h'.same,h'.once,h'.names,h'.chains,h'.total,h'.found⟩,hs,hl ▸ hn⟩

/-- An insertion whose first test does not overflow ends as the reference says. -/
theorem finishInsert_eq (hs : ∀ f, 0 ≤ size files f) {n : ℕ} (h : Represents files c)
    (hr : ¬ Refused files data c) (hl : total (size files) c.lruPolicy+size files data ≤ intMax)
    (hn : c.lruPolicy.length ≤ n) : ∃ c', finishInsert files data n (outcome files data c) = some (true,c') ∧
      c'.lruPolicy = (BoundedLru.insert (name files) (size files) c.maxSize.toInt data c.lruPolicy).2 ∧
      c'.maxSize = c.maxSize ∧ Represents files c' := by
  induction n generalizing c with
  | zero =>
    have hnil : c.lruPolicy = [] := List.length_eq_zero_iff.mp (by omega)
    have hle : size files data ≤ c.maxSize.toInt := not_lt.mp fun h => hr (.inl h)
    have hfit : total (size files) c.lruPolicy+size files data ≤ c.maxSize.toInt := by
      simpa [hnil,total] using hle
    have hf := (fits_iff h hs hl).mpr hfit
    refine ⟨added files data c,?_,?_,rfl,added_represents h hr⟩
    · rw [outcome,if_pos hf,finishInsert_returns]
    · rw [insert_fits hr hfit]
      rfl
  | succ n ih =>
    by_cases hf : fits files data c = true
    · refine ⟨added files data c,?_,?_,rfl,added_represents h hr⟩
      · rw [outcome,if_pos hf,finishInsert_returns]
      · rw [insert_fits hr ((fits_iff h hs hl).mp hf)]
        rfl
    · have hfit : ¬ total (size files) c.lruPolicy+size files data ≤ c.maxSize.toInt :=
        fun hle => hf ((fits_iff h hs hl).mpr hle)
      cases hc : c.lruPolicy with
      | nil =>
        refine absurd ?_ hfit
        simpa [hc,total] using not_lt.mp fun h => hr (.inl h)
      | cons elem l =>
        have hrem := removing_of_cons h hr hc
        obtain ⟨-,hlru,-,-⟩ := hrem.holds.remove
        have hmax : (removeFromCache files elem { c with lruPolicy := l }).maxSize = c.maxSize :=
          removeFromCache_maxSize
        have hr' : ¬ Refused files data (removeFromCache files elem { c with lruPolicy := l }) :=
          not_refused_iff.mpr ⟨by rw [hmax]; exact hrem.allowed,hrem.absent_tail⟩
        have he := hs elem
        rw [hc] at hl hfit hn
        rw [total_cons] at hl
        obtain ⟨c',hfin,hlist,hmx,hrep⟩ := ih hrem.represents hr' (by rw [hlru]; simp only; omega)
          (by rw [hlru]; simpa using hn)
        refine ⟨c',?_,?_,hmx.trans hmax,hrep⟩
        · rw [outcome,if_neg hf,hc]
          change finishInsert files data n (insertNext files data elem { c with lruPolicy := l }) = _
          rw [insertNext,insertDepth,evictLoop_eq hrem.represents hr',hfin]
        · have hrc : ¬ (c.maxSize.toInt < size files data ∨
              ∃ f ∈ elem::l, name files f = name files data) := by
            rw [← hc]
            exact hr
          rw [insert_cons hrc hfit,hlist,hlru,hmax]

theorem cacheInsert_eq (hs : ∀ f, 0 ≤ size files f) (h : Represents files c)
    (hb : total (size files) c.lruPolicy ≤ c.maxSize.toInt)
    (hno : ¬ Refused files data c → c.currSize.toInt+size files data ≤ intMax) :
    ∃ c', cacheInsert files data c =
        some ((BoundedLru.insert (name files) (size files) c.maxSize.toInt data c.lruPolicy).1,c') ∧
      c'.lruPolicy = (BoundedLru.insert (name files) (size files) c.maxSize.toInt data c.lruPolicy).2 ∧
      c'.maxSize = c.maxSize ∧ Represents files c' ∧ (Refused files data c → c' = c) := by
  by_cases hr : Refused files data c
  · refine ⟨c,?_,?_,rfl,h,fun _ => rfl⟩
    · rw [cacheInsert,insertStart_refused h hr,finishInsert_returns,insert_refused hr]
    · rw [insert_refused hr]
  · have hmax := BitVec.toInt_lt (x := c.maxSize)
    have hint : total (size files) c.lruPolicy ≤ intMax := by
      simp only [intMax]
      norm_num at hmax ⊢
      omega
    have hno' := hno hr
    rw [currSize_toInt h hs hint] at hno'
    obtain ⟨c',hfin,hlist,hmx,hrep⟩ := finishInsert_eq hs h hr hno' le_rfl
    refine ⟨c',?_,hlist,hmx,hrep,fun hr' => absurd hr' hr⟩
    rw [cacheInsert,insertStart_eq h hr,hfin,insert_accepted hr]

/-! ### Lookup -/

theorem removeFileToBeMovedToBack_eq (hn : (l.map (name files)).Nodup) :
    removeFileToBeMovedToBack files data l = (find (name files) (name files data) l).map fun f =>
      (f,l.filter fun g => name files g ≠ name files data) := by
  cases hr : removeFileToBeMovedToBack files data l with
  | none =>
    have hnone := removeFileToBeMovedToBack_none hr
    have hf : find (name files) (name files data) l = none := by
      refine List.find?_eq_none.mpr fun f hf hn => ?_
      have hno := List.any_eq_false.mp hnone f hf
      simp only [sameName] at hno
      exact hno hn
    rw [hf]
    rfl
  | some r =>
    obtain ⟨f,l'⟩ := r
    obtain ⟨hp,hsame⟩ := removeFileToBeMovedToBack_some hr
    have hname : name files f = name files data := by simpa [sameName,name] using hsame
    have hf : f ∈ l := hp.mem_iff.mpr List.mem_cons_self
    have hl' : l' = l.erase f := by
      cases l with
      | nil => simp at hf
      | cons head l =>
        simp only [removeFileToBeMovedToBack] at hr
        split at hr
        · obtain ⟨rfl,rfl⟩ : head = f ∧ l = l' := by simpa using hr
          simp
        · split at hr
          · obtain ⟨hlast,rfl⟩ := Prod.mk.inj (Option.some.inj hr)
            have hd := List.dropLast_append_getLast (l := head::l) (by simp)
            rw [hlast] at hd
            have hnd : (head::l).Nodup := hn.of_map _
            rw [← hd] at hnd
            have hnot : f ∉ (head::l).dropLast := fun hm =>
              (List.nodup_append.mp hnd).2.2 f hm f (by simp) rfl
            conv_rhs => rw [← hd]
            rw [List.erase_append_right _ hnot]
            simp
          · obtain ⟨curr,-,hc⟩ := Option.map_eq_some_iff.mp hr
            obtain ⟨rfl,rfl⟩ := Prod.mk.inj hc
            rfl
    rw [hl',erase_eq_filter hn hf,← hname,find_of_mem hn hf]
    rfl

theorem cacheLookup_eq (h : Represents files c) (data : File) : cacheLookup files data c =
    ((lookup (name files) (name files data) c.lruPolicy).1,
      { c with lruPolicy := (lookup (name files) (name files data) c.lruPolicy).2 }) := by
  rw [cacheLookup,removeFileToBeMovedToBack_eq h.names,lookup]
  cases find (name files) (name files data) c.lruPolicy with
  | none => rfl
  | some f => rfl

theorem getCachedFile_eq (data : File) (l : List File) :
    getCachedFile files data l = find (name files) (name files data) l := rfl

/-! ### Runs -/

/-- The test for enough room, if it is reached, does not overflow. -/
def NoOverflow (files : File → FileData) (s : Option Cache) (a : Action) : Prop :=
  ∀ c data, s = some c → a = .insert data → ¬ Refused files data c →
    c.currSize.toInt+size files data ≤ intMax

/-- The cache and the reference cache, side by side. -/
structure Lockstep where
  cache : Option Cache
  list : List File

/-- The same call on both. -/
noncomputable def lockstep (files : File → FileData) (max : ℤ) (p : Lockstep) (a : Action) : Option Lockstep :=
  (CacheModel.step files p.cache a).map fun cache => ⟨cache,match a with
    | .lookup data => (lookup (name files) (name files data) p.list).2
    | .insert data => (BoundedLru.insert (name files) (size files) max data p.list).2⟩

theorem lockstep_insert {files : File → FileData} {max : ℤ} {c c' : Cache} {data : File}
    (h : (cacheInsert files data c).map Prod.snd = some c') (l : List File) :
    lockstep files max ⟨some c,l⟩ (.insert data) =
      some ⟨some c',(BoundedLru.insert (name files) (size files) max data l).2⟩ := by
  rw [← h]
  rfl

/-- What holds of the two between calls. -/
structure Agree (files : File → FileData) (max : ℤ) (p : Lockstep) (c : Cache) : Prop where
  cache : p.cache = some c
  list : c.lruPolicy = p.list
  represents : Represents files c
  limit : c.maxSize.toInt = max
  within : total (size files) p.list ≤ max

theorem agree_lookup {max : ℤ} {p p' : Lockstep} (h : Agree files max p c)
    (hst : lockstep files max p (.lookup data) = some p') :
    Agree files max p' (cacheLookup files data c).2 := by
  have hp : p' = ⟨some (cacheLookup files data c).2,
      (lookup (name files) (name files data) p.list).2⟩ := by
    simpa [lockstep,CacheModel.step,h.cache,eq_comm] using hst
  have he := cacheLookup_eq h.represents data
  have hnames : (p.list.map (name files)).Nodup := h.list ▸ h.represents.names
  subst hp
  refine ⟨rfl,?_,cacheLookup_represents h.represents data,?_,?_⟩
  · rw [he,h.list]
  · rw [he]
    exact h.limit
  · rw [total_perm (lookup_perm hnames (name files data))]
    exact h.within

theorem agree_insert {max : ℤ} {p p' : Lockstep} (hs : ∀ f, 0 ≤ size files f) (h : Agree files max p c)
    (hno : NoOverflow files p.cache (.insert data)) (hst : lockstep files max p (.insert data) = some p') :
    ∃ c', Agree files max p' c' := by
  obtain ⟨c',hc',hlist,hmax,hrep,-⟩ := cacheInsert_eq hs h.represents
    (by rw [h.list,h.limit]; exact h.within) fun hr => hno c data h.cache rfl hr
  have hp : p' = ⟨some c',(BoundedLru.insert (name files) (size files) max data p.list).2⟩ := by
    simpa [lockstep,CacheModel.step,h.cache,hc',eq_comm] using hst
  subst hp
  refine ⟨c',rfl,?_,hrep,?_,total_insert_le h.within⟩
  · rw [hlist,h.list,h.limit]
  · rw [hmax]
    exact h.limit

theorem limit_pos {maxSize : BitVec 32} (h : 0 < (initCache maxSize).arraySize) : 0 < maxSize.toInt := by
  have hdiv : 0 < 2*maxSize.toInt.tdiv 4096 := h
  by_contra hle
  have hneg := Int.tdiv_nonneg (a := -maxSize.toInt) (b := 4096) (by omega) (by decide)
  rw [Int.neg_tdiv] at hneg
  omega

theorem agree_of_reachable {maxSize : BitVec 32} (hpos : 0 < (initCache maxSize).arraySize)
    (hs : ∀ f, 0 ≤ size files f) {p : Lockstep}
    (h : Reachable ⟨some (initCache maxSize),[]⟩ (lockstep files maxSize.toInt)
      (fun p a => NoOverflow files p.cache a) p) : ∃ c, Agree files maxSize.toInt p c := by
  refine h.invariant (P := fun p => ∃ c, Agree files maxSize.toInt p c) ?_ ?_
  · refine ⟨initCache maxSize,rfl,rfl,initCache_represents hpos,rfl,?_⟩
    exact (limit_pos hpos).le
  · rintro p a p' ⟨c,hc⟩ hok hst
    cases a with
    | lookup data => exact ⟨_,agree_lookup hc hst⟩
    | insert data => exact agree_insert hs hc hok hst

/-- Step by step, the cache returns what the reference cache returns and holds what it holds. -/
theorem cache_refines_lru {maxSize : BitVec 32} (hpos : 0 < (initCache maxSize).arraySize)
    (hs : ∀ f, 0 ≤ size files f) {p : Lockstep}
    (h : Reachable ⟨some (initCache maxSize),[]⟩ (lockstep files maxSize.toInt)
      (fun p a => NoOverflow files p.cache a) p) :
    ∃ c, p.cache = some c ∧ c.lruPolicy = p.list ∧ (p.list.map (name files)).Nodup ∧
      (∀ data, (cacheLookup files data c).1 = (lookup (name files) (name files data) p.list).1 ∧
        getCachedFile files data (cacheLookup files data c).2.lruPolicy =
          find (name files) (name files data) p.list) ∧
      ∀ data, NoOverflow files p.cache (.insert data) → ∃ c', cacheInsert files data c =
          some ((BoundedLru.insert (name files) (size files) maxSize.toInt data p.list).1,c') ∧
        ((BoundedLru.insert (name files) (size files) maxSize.toInt data p.list).1 = false → c' = c) := by
  obtain ⟨c,hc⟩ := agree_of_reachable hpos hs h
  refine ⟨c,hc.cache,hc.list,hc.list ▸ hc.represents.names,fun data => ⟨?_,?_⟩,fun data hno => ?_⟩
  · rw [cacheLookup_eq hc.represents,hc.list]
  · rw [cacheLookup_eq hc.represents,getCachedFile_eq,hc.list]
    exact find_lookup _ _
  · obtain ⟨c',hc',-,-,-,hsame⟩ := cacheInsert_eq hs hc.represents
      (by rw [hc.list,hc.limit]; exact hc.within) fun hr => hno c data hc.cache rfl hr
    rw [hc.list,hc.limit] at hc'
    refine ⟨c',hc',fun hfalse => hsame ?_⟩
    by_contra hr
    have hr' : ¬ (maxSize.toInt < size files data ∨ ∃ f ∈ p.list, name files f = name files data) := by
      rw [← hc.list,← hc.limit]
      exact hr
    rw [insert_accepted hr'] at hfalse
    cases hfalse

theorem threeFiles_nonneg (f : File) : 0 ≤ size threeFiles f := by
  match f with
  | 0 => decide
  | 1 => decide
  | n+2 => exact (by decide : (0 : ℤ) ≤ (4096 : BitVec 32).toInt)

/-- The second insertion evicts the first file, from both caches. -/
theorem eviction_refines : ∃ c₁ c₂,
    (cacheInsert threeFiles 0 (initCache 4096)).map Prod.snd = some c₁ ∧
    (cacheInsert threeFiles 1 c₁).map Prod.snd = some c₂ ∧ c₁.lruPolicy = [0] ∧ c₂.lruPolicy = [1] ∧
    c₂.lruPolicy = (BoundedLru.insert (name threeFiles) (size threeFiles) 4096 1
      (BoundedLru.insert (name threeFiles) (size threeFiles) 4096 0 []).2).2 := by
  obtain ⟨c₁,h₁⟩ : ∃ c₁, (cacheInsert threeFiles 0 (initCache 4096)).map Prod.snd = some c₁ := ⟨_,rfl⟩
  have hlist₁ : c₁.lruPolicy = [0] := by
    cases h₁
    decide
  have hno₁ : NoOverflow threeFiles (some (initCache 4096)) (.insert 0) := by
    intro c data hc hd _
    cases hc
    cases hd
    decide
  have hno₂ : NoOverflow threeFiles (some c₁) (.insert 1) := by
    intro c data hc hd _
    cases hc
    cases hd
    cases h₁
    decide
  obtain ⟨c₂,h₂,hlist₂⟩ : ∃ c₂, (cacheInsert threeFiles 1 c₁).map Prod.snd = some c₂ ∧
      c₂.lruPolicy = [1] := by
    cases h₁
    exact ⟨_,rfl,by decide⟩
  have hrun : Reachable ⟨some (initCache 4096),[]⟩ (lockstep threeFiles (4096 : BitVec 32).toInt)
      (fun p a => NoOverflow threeFiles p.cache a) ⟨some c₂,_⟩ :=
    .step (.insert 1) (.step (.insert 0) .init hno₁ (lockstep_insert h₁ [])) hno₂
      (lockstep_insert h₂ _)
  obtain ⟨c,hc,hl,-⟩ :=
    cache_refines_lru (by decide : 0 < (initCache 4096).arraySize) threeFiles_nonneg hrun
  cases hc
  exact ⟨c₁,c₂,h₁,h₂,hlist₁,hlist₂,hl⟩

/-! ### The limit -/

/-- `curr_size` and the true sum of the sizes are within the limit. -/
structure Bounded (files : File → FileData) (c : Cache) : Prop where
  nonneg : 0 ≤ c.currSize.toInt
  currSize_le : c.currSize.toInt ≤ c.maxSize.toInt
  total_le : total (size files) (table c) ≤ c.maxSize.toInt

/-- The call has not crashed, and the cache it leaves is within the limit. -/
def WithinLimit (files : File → FileData) (s : Option Cache) : Prop := ∃ c, s = some c ∧ Bounded files c

theorem le_intMax (x : BitVec 32) : x.toInt ≤ intMax := by
  have h := BitVec.toInt_lt (x := x)
  simp only [intMax]
  norm_num at h ⊢
  omega

theorem bounded_iff (h : Represents files c) (hs : ∀ f, 0 ≤ size files f) :
    Bounded files c ↔ total (size files) c.lruPolicy ≤ c.maxSize.toInt := by
  have ht : total (size files) (table c) = total (size files) c.lruPolicy := total_perm h.same
  constructor
  · exact fun hb => ht ▸ hb.total_le
  · intro hle
    have hc := currSize_toInt h hs (hle.trans (le_intMax _))
    exact ⟨by rw [hc]; exact total_nonneg hs _,by rw [hc]; exact hle,by rw [ht]; exact hle⟩

/-- The file is added although there is not enough room for it. -/
theorem cacheInsert_overflow (h : Represents files c) (hb : Bounded files c) (hs : ∀ f, 0 ≤ size files f)
    (hr : ¬ Refused files data c) (ho : intMax < c.currSize.toInt+size files data) :
    cacheInsert files data c = some (true,added files data c) ∧ ¬ Bounded files (added files data c) := by
  have hneg : (c.currSize+(files data).fileSize).toInt < 0 := toInt_add_overflow hb.nonneg (hs data) ho
  have hf : fits files data c = true := by
    rw [fits,BitVec.sle_iff_toInt_le]
    exact hneg.le.trans (hb.nonneg.trans hb.currSize_le)
  refine ⟨?_,fun hb' => absurd hb'.nonneg (not_le.mpr hneg)⟩
  rw [cacheInsert,insertStart_eq h hr,outcome,if_pos hf,finishInsert_returns]

/-- A call whose test does not overflow stays within the limit. -/
theorem bounded_step (hs : ∀ f, 0 ≤ size files f) {a : Action} (h : Represents files c)
    (hb : Bounded files c) (hno : NoOverflow files (some c) a) : ∃ c',
      CacheModel.step files (some c) a = some (some c') ∧ Represents files c' ∧ Bounded files c' ∧
        c'.maxSize = c.maxSize := by
  have htotal := (bounded_iff h hs).mp hb
  cases a with
  | lookup data =>
    have hrep := cacheLookup_represents h data
    have he := cacheLookup_eq h data
    refine ⟨_,rfl,hrep,(bounded_iff hrep hs).mpr ?_,by rw [he]⟩
    rw [he]
    exact (total_perm (lookup_perm h.names _)).trans_le htotal
  | insert data =>
    obtain ⟨c',hc',hlist,hmax,hrep,-⟩ := cacheInsert_eq hs h htotal fun hr => hno c data rfl rfl hr
    refine ⟨c',by simp [CacheModel.step,hc'],hrep,(bounded_iff hrep hs).mpr ?_,hmax⟩
    rw [hlist,hmax]
    exact total_insert_le htotal

/-- A call whose test overflows does not. -/
theorem not_withinLimit_step (hs : ∀ f, 0 ≤ size files f) {a : Action} (h : Represents files c)
    (hb : Bounded files c) (hno : ¬ NoOverflow files (some c) a) : ∃ s',
      CacheModel.step files (some c) a = some s' ∧ ¬ WithinLimit files s' := by
  simp only [NoOverflow,not_forall,not_le] at hno
  obtain ⟨c₁,data,hc₁,rfl,hr,ho⟩ := hno
  obtain rfl := Option.some.inj hc₁
  obtain ⟨hins,hun⟩ := cacheInsert_overflow h hb hs hr ho
  refine ⟨some (added files data c),by simp [CacheModel.step,hins],?_⟩
  rintro ⟨c',hc',hb'⟩
  obtain rfl := Option.some.inj hc'
  exact hun hb'

/-- The calls from a cache within the limit stay within it exactly when no test overflows. -/
theorem along_iff_allowed (hs : ∀ f, 0 ≤ size files f) {run : List Action} (h : Represents files c)
    (hb : Bounded files c) : Along (CacheModel.step files) (WithinLimit files) run (some c) ↔
      Allowed (CacheModel.step files) (NoOverflow files) run (some c) := by
  induction run generalizing c with
  | nil => exact ⟨fun _ => trivial,fun _ => ⟨c,rfl,hb⟩⟩
  | cons a as ih =>
    by_cases hno : NoOverflow files (some c) a
    · obtain ⟨c',hst,hrep,hb',-⟩ := bounded_step hs h hb hno
      have hwithin : WithinLimit files (some c) := ⟨c,rfl,hb⟩
      simp only [Along,Allowed,hst,Option.some.injEq,forall_eq',hwithin,hno,true_and]
      exact ih hrep hb'
    · refine ⟨fun halong => ?_,fun hallow => absurd hallow.1 hno⟩
      obtain ⟨s',hst,hun⟩ := not_withinLimit_step hs h hb hno
      exact absurd (halong.2 s' hst).here hun

/-- A limit below one gigabyte is never passed. -/
theorem allowed_of_small_limit (hs : ∀ f, 0 ≤ size files f) {run : List Action} (h : Represents files c)
    (hb : Bounded files c) (hsmall : 2*c.maxSize.toInt ≤ intMax) :
    Allowed (CacheModel.step files) (NoOverflow files) run (some c) := by
  induction run generalizing c with
  | nil => trivial
  | cons a as ih =>
    have hno : NoOverflow files (some c) a := by
      rintro c₁ data hc₁ rfl hr
      obtain rfl := Option.some.inj hc₁
      have hle : size files data ≤ c.maxSize.toInt := not_lt.mp fun h => hr (.inl h)
      have hcur := hb.currSize_le
      omega
    obtain ⟨c',hst,hrep,hb',hmax⟩ := bounded_step hs h hb hno
    refine ⟨hno,fun s' hs' => ?_⟩
    obtain rfl := Option.some.inj (hst.symm.trans hs')
    exact ih hrep hb' (by rw [hmax]; exact hsmall)

theorem initCache_bounded {maxSize : BitVec 32} (hmax : 4096 ≤ maxSize.toInt)
    (hs : ∀ f, 0 ≤ size files f) :
    Represents files (initCache maxSize) ∧ Bounded files (initCache maxSize) := by
  have hpos : 0 < (initCache maxSize).arraySize := by
    have hdiv : 1 ≤ maxSize.toInt.tdiv 4096 := Int.le_tdiv_of_mul_le (by decide) (by omega)
    change 0 < 2*maxSize.toInt.tdiv 4096
    omega
  have hrep : Represents files (initCache maxSize) := initCache_represents hpos
  refine ⟨hrep,(bounded_iff hrep hs).mpr ?_⟩
  change (0 : ℤ) ≤ maxSize.toInt
  omega

/-- In a run of the cache all states are within the limit exactly when no test for enough room
overflows. -/
theorem cache_within_limit_iff {maxSize : BitVec 32} (hmax : 4096 ≤ maxSize.toInt)
    (hs : ∀ f, 0 ≤ size files f) (run : List Action) :
    Along (CacheModel.step files) (WithinLimit files) run (some (initCache maxSize)) ↔
      Allowed (CacheModel.step files) (NoOverflow files) run (some (initCache maxSize)) := by
  obtain ⟨hrep,hb⟩ : Represents files (initCache maxSize) ∧ Bounded files (initCache maxSize) :=
    initCache_bounded hmax hs
  exact along_iff_allowed hs hrep hb

theorem threeFiles_within_limit : Along (CacheModel.step threeFiles) (WithinLimit threeFiles)
    [.insert 0,.lookup 0,.insert 1,.insert 2] (some (initCache 4096)) := by
  obtain ⟨hrep,hb⟩ := initCache_bounded (by decide : 4096 ≤ BitVec.toInt (4096 : BitVec 32)) threeFiles_nonneg
  exact (cache_within_limit_iff (by decide) threeFiles_nonneg _).mpr
    (allowed_of_small_limit threeFiles_nonneg hrep hb (by decide))

/-- A file of the largest size, and one of a single byte. -/
def largeFiles : File → FileData
  | 0 => ⟨⟨[120],by decide⟩,2147483647⟩
  | _ => ⟨⟨[121],by decide⟩,1⟩

theorem largeFiles_run : (exec (CacheModel.step largeFiles) [.insert 0,.insert 1]
    (some (initCache 2147483647))).isSome = true := by decide +kernel

/-- The cache after both files have been inserted. -/
def afterOverflow : Option Cache := final (CacheModel.step largeFiles) [.insert 0,.insert 1]
  (some (initCache 2147483647)) largeFiles_run

theorem afterOverflow_size :
    (afterOverflow.map fun c => c.currSize.toInt) = some (-2147483648) := by decide +kernel

/-- The second file is added on top of the first one, and `curr_size` is negative. -/
theorem overflow_passes_limit : (∀ f, 0 ≤ size largeFiles f) ∧ 4096 ≤ (2147483647 : BitVec 32).toInt ∧
    ¬ Along (CacheModel.step largeFiles) (WithinLimit largeFiles) [.insert 0,.insert 1]
      (some (initCache 2147483647)) := by
  refine ⟨fun f => ?_,by decide,fun halong => ?_⟩
  · match f with
    | 0 => decide
    | n+1 => exact (by decide : (0 : ℤ) ≤ (1 : BitVec 32).toInt)
  · obtain ⟨c,hc,hb⟩ := halong.of_exec (Option.some_get largeFiles_run).symm
    have hsize := afterOverflow_size
    rw [afterOverflow,final,hc] at hsize
    have hneg : c.currSize.toInt = -2147483648 := Option.some.inj hsize
    have hnn := hb.nonneg
    omega

end CacheRefinement
end OsLabs

import OsLabs.CacheModel
import OsLabs.QueueFamily

/-!
# The representation of the cache

The hash table and `LRU_Policy` hold the same files, each once and under different names,
every file is in the chain of its name, and `curr_size` is the sum of the sizes. When
`remove_from_cache` is called, its file has already left the list.
-/

namespace OsLabs
namespace CacheInvariant

open CacheModel Transition

/-- The contents of the hash table. -/
def table (c : Cache) : List File := (List.range c.arraySize.toNat).flatMap fun i : ℕ => c.mapping i

/-- The files that are in the hash table, given in the order of their eviction. -/
structure Holds (files : File → FileData) (c : Cache) (l : List File) : Prop where
  positive : 0 < c.arraySize
  same : (table c).Perm l
  once : l.Nodup
  names : (l.map fun f => (files f).fileName).Nodup
  chains : ∀ i, 0 ≤ i → i < c.arraySize → ∀ f ∈ c.mapping i, bucket c.arraySize (files f).fileName = i
  total : c.currSize = (l.map fun f => (files f).fileSize).sum
  found : ∀ r ∈ c.removals, r.freed = some r.data

/-- The representation invariant between two calls. -/
def Represents (files : File → FileData) (c : Cache) : Prop := Holds files c c.lruPolicy

variable {files : File → FileData} {c : Cache} {l : List File} {data elem : File}

theorem bucket_range {arraySize : ℤ} (h : 0 < arraySize) (str : FileName) :
    0 ≤ bucket arraySize str ∧ bucket arraySize str < arraySize := by
  have h₁ := Int.tmod_lt_of_pos (hashValue str).toInt h
  have h₂ := Int.lt_tmod_of_pos (hashValue str).toInt h
  simp only [bucket]
  split <;> omega

theorem mem_table {f : File} :
    f ∈ table c ↔ ∃ i, (0 ≤ i ∧ i < c.arraySize) ∧ f ∈ c.mapping i := by
  simp only [table,List.mem_flatMap,List.mem_range]
  constructor
  · rintro ⟨n,hn,hf⟩
    exact ⟨n,by omega,hf⟩
  · rintro ⟨i,⟨h₀,h₁⟩,hf⟩
    obtain ⟨n,rfl⟩ := Int.eq_ofNat_of_zero_le h₀
    exact ⟨n,by omega,hf⟩

/-- Files of the same name are the same object. -/
theorem Holds.eq_of_sameName (h : Holds files c l) {f g : File} (hf : f ∈ l) (hg : g ∈ l)
    (hn : sameName files f g = true) : f = g :=
  List.inj_on_of_nodup_map h.names hf hg (by simpa [sameName] using hn)

theorem Holds.mem_chain (h : Holds files c l) {f : File} (hf : f ∈ l) :
    f ∈ c.mapping (bucket c.arraySize (files f).fileName) := by
  have hm : f ∈ table c := h.same.mem_iff.mpr hf
  obtain ⟨i,⟨h₀,h₁⟩,hi⟩ := mem_table.mp hm
  rwa [h.chains i h₀ h₁ f hi]

theorem Holds.mem_of_chain (h : Holds files c l) {i : ℤ} (h₀ : 0 ≤ i) (h₁ : i < c.arraySize) {f : File}
    (hf : f ∈ c.mapping i) : f ∈ l :=
  h.same.mem_iff.mp (mem_table.mpr ⟨i,⟨h₀,h₁⟩,hf⟩)

/-- The chain of a name is searched in vain exactly when no file has the name. -/
theorem Holds.any_chain (h : Holds files c l) (data : File) :
    (c.mapping (bucket c.arraySize (files data).fileName)).any (sameName files · data) =
      l.any (sameName files · data) := by
  obtain ⟨h₀,h₁⟩ := bucket_range h.positive (files data).fileName
  rw [Bool.eq_iff_iff,List.any_eq_true,List.any_eq_true]
  constructor
  · rintro ⟨f,hf,hn⟩
    exact ⟨f,h.mem_of_chain h₀ h₁ hf,hn⟩
  · rintro ⟨f,hf,hn⟩
    have hb := h.mem_chain hf
    rw [show (files f).fileName = (files data).fileName by simpa [sameName] using hn] at hb
    exact ⟨f,hb,hn⟩

theorem table_update {i : ℤ} (h₀ : 0 ≤ i) (h₁ : i < c.arraySize) (chain : List File) :
    (table { c with mapping := Function.update c.mapping i chain } ++ c.mapping i).Perm
      (table c ++ chain) := by
  obtain ⟨n,rfl⟩ := Int.eq_ofNat_of_zero_le h₀
  have hu : (fun k : ℕ => Function.update c.mapping (n : ℤ) chain k) =
      Function.update (fun k : ℕ => c.mapping k) n chain := by
    funext k
    by_cases hk : k = n
    · subst hk; simp
    · rw [Function.update_of_ne hk,Function.update_of_ne (by simpa using hk)]
  have hp := QueueFamily.flatMap_update (f := fun k : ℕ => c.mapping k) (i := n)
    (List.nodup_range (n := c.arraySize.toNat)) (by simp; omega) chain
  simpa only [table,hu] using hp

/-! ### The operations on the list -/

theorem removeFileToBeMovedToBack_some {f : File} {l' : List File}
    (h : removeFileToBeMovedToBack files data l = some (f,l')) :
    l.Perm (f::l') ∧ sameName files f data = true := by
  cases l with
  | nil => simp [removeFileToBeMovedToBack] at h
  | cons head l =>
    simp only [removeFileToBeMovedToBack] at h
    split at h
    · rename_i hn
      obtain ⟨rfl,rfl⟩ : head = f ∧ l = l' := by simpa using h
      exact ⟨List.Perm.refl _,hn⟩
    · split at h
      · rename_i hn
        obtain ⟨rfl,rfl⟩ := Prod.mk.inj (Option.some.inj h)
        refine ⟨?_,hn⟩
        have hd := List.dropLast_append_getLast (l := head::l) (by simp)
        exact (List.Perm.of_eq hd.symm).trans List.perm_append_comm
      · obtain ⟨curr,hc,hr⟩ := Option.map_eq_some_iff.mp h
        obtain ⟨rfl,rfl⟩ := Prod.mk.inj hr
        exact ⟨List.perm_cons_erase (List.mem_of_find?_eq_some hc),List.find?_some (p := (sameName files · data)) hc⟩

theorem removeFileToBeMovedToBack_none (h : removeFileToBeMovedToBack files data l = none) :
    l.any (sameName files · data) = false := by
  cases l with
  | nil => rfl
  | cons head l =>
    simp only [removeFileToBeMovedToBack] at h
    split at h
    · simp at h
    · split at h
      · simp at h
      · have hf : (head::l).find? (sameName files · data) = none := by simpa using h
        simpa [List.any_eq_false] using hf

/-- The order of the list plays no part in the representation. -/
theorem Holds.perm {l' : List File} (h : Holds files c l) (hp : l.Perm l') : Holds files c l' where
  positive := h.positive
  same := h.same.trans hp
  once := hp.nodup_iff.mp h.once
  names := (hp.map _).nodup_iff.mp h.names
  chains := h.chains
  total := h.total.trans (hp.map _).sum_eq
  found := h.found

theorem cacheLookup_represents (h : Represents files c) (data : File) :
    Represents files (cacheLookup files data c).2 := by
  unfold cacheLookup
  split
  · exact h
  · rename_i info l hr
    have hp : c.lruPolicy.Perm (pushBack info l) :=
      (removeFileToBeMovedToBack_some hr).1.trans (List.perm_append_singleton info l).symm
    have hh := h.perm hp
    exact ⟨hh.positive,hh.same,hh.once,hh.names,hh.chains,hh.total,hh.found⟩

/-! ### Removal -/

theorem unlink_eq (files : File → FileData) (elem : File) {chain : List File} (hu : ∀ f ∈ chain, sameName files f elem = true → f = elem)
    (he : elem ∈ chain) : ∃ chain', unlink files elem chain = some (elem,chain') ∧
      chain.Perm (elem::chain') := by
  induction chain with
  | nil => simp at he
  | cons curr next ih =>
    by_cases hn : sameName files curr elem = true
    · obtain rfl := hu curr (by simp) hn
      exact ⟨next,by simp [unlink,hn],List.Perm.refl _⟩
    · have hne : elem ≠ curr := by
        rintro rfl
        simp [sameName] at hn
      obtain ⟨chain',h₁,h₂⟩ := ih (fun f hf => hu f (by simp [hf]))
        ((List.mem_cons.mp he).resolve_left hne)
      exact ⟨curr::chain',by simp [unlink,hn,h₁],(h₂.cons curr).trans (List.Perm.swap _ _ _)⟩

/-- Exchanging the chain of a name, with the files that are in the table. -/
theorem Holds.rechain {l' lru chain : List File} {str : FileName} {size : BitVec 32}
    {removals : List Removal} (h : Holds files c l)
    (hp : (c.mapping (bucket c.arraySize str) ++ l').Perm (chain ++ l))
    (hn : (l'.map fun f => (files f).fileName).Nodup)
    (hb : ∀ f ∈ chain, bucket c.arraySize (files f).fileName = bucket c.arraySize str)
    (hs : size = (l'.map fun f => (files f).fileSize).sum)
    (hr : ∀ r ∈ removals, r.freed = some r.data) :
    Holds files ⟨c.maxSize,size,c.arraySize,Function.update c.mapping (bucket c.arraySize str) chain,
      lru,removals⟩ l' where
  positive := h.positive
  same := by
    obtain ⟨h₀,h₁⟩ := bucket_range h.positive str
    have ht := table_update (c := c) h₀ h₁ chain
    have hm : (table c ++ chain).Perm (l' ++ c.mapping (bucket c.arraySize str)) :=
      calc table c ++ chain
          _ |>.Perm (l ++ chain) := h.same.append_right chain
          _ |>.Perm (chain ++ l) := List.perm_append_comm
          _ |>.Perm (c.mapping (bucket c.arraySize str) ++ l') := hp.symm
          _ |>.Perm (l' ++ c.mapping (bucket c.arraySize str)) := List.perm_append_comm
    exact (List.perm_append_right_iff _).mp (ht.trans hm)
  once := hn.of_map
  names := hn
  chains := by
    intro i h₀ h₁ f hf
    change f ∈ Function.update c.mapping (bucket c.arraySize str) chain i at hf
    by_cases hi : i = bucket c.arraySize str
    · subst hi
      rw [Function.update_self] at hf
      exact hb f hf
    · rw [Function.update_of_ne hi] at hf
      exact h.chains i h₀ h₁ f hf
  total := hs
  found := hr

/-- `remove_from_cache` finds and frees the file that has left the list. -/
theorem Holds.remove (h : Holds files c (elem::l)) :
    Holds files (removeFromCache files elem c) l ∧
      (removeFromCache files elem c).lruPolicy = c.lruPolicy ∧
      (removeFromCache files elem c).removals = ⟨elem,some elem⟩::c.removals ∧
      (removeFromCache files elem c).currSize = c.currSize-(files elem).fileSize := by
  obtain ⟨h₀,h₁⟩ := bucket_range h.positive (files elem).fileName
  obtain ⟨chain,hu,hp⟩ := unlink_eq files elem
    (fun f hf hn => h.eq_of_sameName (h.mem_of_chain h₀ h₁ hf) (by simp) hn) (h.mem_chain (by simp))
  simp only [removeFromCache,hu,and_true]
  refine h.rechain ?_ ?_ (fun f hf => ?_) ?_ ?_
  · exact (hp.append_right l).trans (by simpa using List.perm_middle.symm)
  · exact (List.nodup_cons.mp (by simpa using h.names)).2
  · exact h.chains _ h₀ h₁ f (hp.mem_iff.mpr (by simp [hf]))
  · have ht := h.total
    simp only [List.map_cons,List.sum_cons] at ht
    rw [ht]
    abel
  · intro r hr
    rcases List.mem_cons.mp hr with rfl | hr
    · rfl
    · exact h.found r hr

/-! ### Insertion -/

theorem Represents.add (h : Represents files c)
    (hn : c.lruPolicy.any (sameName files · data) = false) :
    Represents files { c with
      mapping := Function.update c.mapping (bucket c.arraySize (files data).fileName)
        (c.mapping (bucket c.arraySize (files data).fileName) ++ [data])
      currSize := c.currSize+(files data).fileSize
      lruPolicy := pushBack data c.lruPolicy } := by
  obtain ⟨h₀,h₁⟩ := bucket_range h.positive (files data).fileName
  refine Holds.rechain h ?_ ?_ (fun f hf => ?_) ?_ h.found
  · simp only [pushBack,List.append_assoc]
    exact List.Perm.append_left _ List.perm_append_comm
  · have hd : ∀ f ∈ c.lruPolicy, (files f).fileName ≠ (files data).fileName := by
      simpa [List.any_eq_false,sameName] using hn
    simp only [pushBack,List.map_append,List.map_cons,List.map_nil]
    refine List.nodup_append.mpr ⟨h.names,by simp,?_⟩
    simpa using hd
  · rcases List.mem_append.mp hf with hf | hf
    · exact h.chains _ h₀ h₁ f hf
    · rw [List.mem_singleton.mp hf]
  · rw [h.total]
    simp [pushBack]

/-- The list holds a file of the same name. -/
def listed (files : File → FileData) (data : File) (l : List File) : Bool :=
  l.any (sameName files · data)

/-- What `insert_to_cache` can do until it returns or calls `remove_from_cache`: it does not
crash, and it asks to remove the first file of the list only if there is not enough room. -/
inductive Advance (files : File → FileData) (data : File) (c : Cache) : Progress → Prop
  | returns (inserted : Bool) (c' : Cache) : Represents files c' → c'.removals = c.removals →
      c'.lruPolicy = c.lruPolicy ∨ c'.lruPolicy = pushBack data c.lruPolicy →
      (c.maxSize.slt (files data).fileSize = false → listed files data c.lruPolicy = false →
        fits files data c = true) →
      Advance files data c (.returns inserted c')
  | removes (elem : File) (l : List File) : c.lruPolicy = elem::l →
      c.maxSize.slt (files data).fileSize = false → listed files data c.lruPolicy = false →
      fits files data c = false → c.currSize ≠ 0 →
      Advance files data c (.removes elem { c with lruPolicy := l })

theorem insertToCache_fits (h : Represents files c) (n : ℕ)
    (hs : c.maxSize.slt (files data).fileSize = false) (hf : fits files data c = true) :
    Advance files data c (insertToCache files data (n+1) c) := by
  have hpos := h.positive.ne'
  have hany := h.any_chain data
  unfold insertToCache
  simp only [hs,hpos,hf,if_true,if_false,Bool.false_eq_true]
  split
  · rename_i hc
    rw [hc,List.any_nil] at hany
    have ha := h.add hany.symm
    rw [hc] at ha
    exact .returns true _ ha rfl (.inr rfl) fun _ _ => hf
  · split
    · exact .returns false c h rfl (.inl rfl) fun _ _ => hf
    · rename_i hn
      have hn' : c.lruPolicy.any (sameName files · data) = false := by
        rw [← hany]
        simpa using hn
      exact .returns true _ (h.add hn') rfl (.inr rfl) fun _ _ => hf

/-- An empty cache has enough room for a file that is not too large. -/
theorem fits_of_currSize_zero (hs : c.maxSize.slt (files data).fileSize = false)
    (h₀ : c.currSize = 0) : fits files data c = true := by
  simp [fits,h₀,BitVec.sle_eq_not_slt,hs]

/-- The list is not empty when the loop evicts. -/
theorem evictLoop_advance (h : Represents files c) (n : ℕ)
    (hs : c.maxSize.slt (files data).fileSize = false) (hn : listed files data c.lruPolicy = false) :
    Advance files data c (evictLoop files data (insertToCache files data (n+1)) c) := by
  unfold evictLoop
  split
  · rename_i hf
    exact insertToCache_fits h n hs hf
  · rename_i hf
    split
    · rename_i h₀
      exact absurd (fits_of_currSize_zero hs h₀) hf
    · rename_i h₀
      cases hl : c.lruPolicy with
      | nil =>
        have ht := h.total
        rw [hl] at ht
        exact absurd ht h₀
      | cons elem l => exact .removes elem l hl hs hn (by simpa using hf) h₀

theorem insertStart_advance (h : Represents files c) (data : File) :
    Advance files data c (insertStart files data c) := by
  cases hs : c.maxSize.slt (files data).fileSize with
  | true =>
    have hi : insertStart files data c = .returns false c := by
      simp [insertStart,insertDepth,insertToCache,hs]
    rw [hi]
    exact .returns false c h rfl (.inl rfl) (by simp [hs])
  | false =>
    cases hf : fits files data c with
    | true => exact insertToCache_fits h 1 hs hf
    | false =>
      have hpos := h.positive.ne'
      have hany := h.any_chain data
      unfold insertStart insertDepth insertToCache
      simp only [hs,hpos,hf,if_false,Bool.false_eq_true]
      split
      · rename_i hc
        rw [hc,List.any_nil] at hany
        exact evictLoop_advance h 0 hs hany.symm
      · split
        · rename_i hn
          exact .returns false c h rfl (.inl rfl) (by simp [listed,← hany,hn])
        · rename_i hn
          exact evictLoop_advance h 0 hs (by rw [listed,← hany]; simpa using hn)

/-- The state of the cache while its first file is being removed. -/
structure Removing (files : File → FileData) (data elem : File) (c : Cache) : Prop where
  holds : Holds files c (elem::c.lruPolicy)
  allowed : c.maxSize.slt (files data).fileSize = false
  absent : listed files data (elem::c.lruPolicy) = false

theorem Advance.removing {elem : File} {c' : Cache} (h : Represents files c)
    (ha : Advance files data c (.removes elem c')) :
    Removing files data elem c' ∧ c.lruPolicy = elem::c'.lruPolicy := by
  cases ha with
  | removes elem l hl hs hn _ _ =>
    have h' : Holds files c (elem::l) := hl ▸ h
    exact ⟨⟨⟨h'.positive,h'.same,h'.once,h'.names,h'.chains,h'.total,h'.found⟩,hs,hl ▸ hn⟩,hl⟩

theorem Removing.represents (h : Removing files data elem c) :
    Represents files (removeFromCache files elem c) := by
  obtain ⟨hr,hl,_⟩ := h.holds.remove
  rw [Represents,hl]
  exact hr

theorem removeFromCache_maxSize : (removeFromCache files elem c).maxSize = c.maxSize := by
  unfold removeFromCache
  dsimp only
  split <;> rfl

theorem Removing.absent_tail (h : Removing files data elem c) :
    listed files data (removeFromCache files elem c).lruPolicy = false := by
  have ha := h.absent
  rw [h.holds.remove.2.1]
  simp only [listed,List.any_cons,Bool.or_eq_false_iff] at ha
  exact ha.2

theorem Removing.insertNext_advance (h : Removing files data elem c) :
    Advance files data (removeFromCache files elem c) (insertNext files data elem c) := by
  have hs : (removeFromCache files elem c).maxSize.slt (files data).fileSize = false := by
    rw [removeFromCache_maxSize]
    exact h.allowed
  unfold insertNext insertDepth
  exact evictLoop_advance h.represents 1 hs h.absent_tail

/-! ### Whole calls and runs -/

theorem finishInsert_represents {n : ℕ} {p : Progress} (h : Represents files c)
    (ha : Advance files data c p) (hn : c.lruPolicy.length ≤ n) :
    ∃ inserted c', finishInsert files data n p = some (inserted,c') ∧ Represents files c' := by
  induction n generalizing c p with
  | zero =>
    cases ha with
    | returns inserted c' hr _ _ _ => exact ⟨inserted,c',rfl,hr⟩
    | removes elem l hl _ _ _ _ => simp [hl] at hn
  | succ n ih =>
    cases ha with
    | returns inserted c' hr _ _ _ => exact ⟨inserted,c',rfl,hr⟩
    | removes elem l hl hs hab hf h₀ =>
      obtain ⟨hr,_⟩ := Advance.removing h (.removes elem l hl hs hab hf h₀)
      have hlen : (removeFromCache files elem { c with lruPolicy := l }).lruPolicy.length ≤ n := by
        rw [hr.holds.remove.2.1]
        rw [hl] at hn
        simpa using hn
      exact ih hr.represents hr.insertNext_advance hlen

/-- `cache_insert` returns and keeps the representation. -/
theorem cacheInsert_represents (h : Represents files c) (data : File) :
    ∃ inserted c', cacheInsert files data c = some (inserted,c') ∧ Represents files c' :=
  finishInsert_represents h (insertStart_advance h data) le_rfl

theorem initCache_represents {maxSize : BitVec 32} (h : 0 < (initCache maxSize).arraySize) :
    Represents files (initCache maxSize) where
  positive := h
  same := by simp [table,initCache]
  once := List.nodup_nil
  names := List.nodup_nil
  chains i _ _ f hf := by simp [initCache] at hf
  total := rfl
  found r hr := by simp [initCache] at hr

/-- After any sequence of calls on a cache that `init_cache` has made with at least one
chain, no call has crashed and the cache is well represented. -/
theorem cache_represented {maxSize : BitVec 32} (hpos : 0 < (initCache maxSize).arraySize)
    {state : Option Cache}
    (h : Reachable (some (initCache maxSize)) (CacheModel.step files) (fun _ _ => True) state) :
    ∃ c, state = some c ∧ Represents files c := by
  refine h.invariant (P := fun state => ∃ c, state = some c ∧ Represents files c)
    ⟨_,rfl,initCache_represents hpos⟩ ?_
  rintro _ a state' ⟨c,rfl,hc⟩ _ hst
  cases a with
  | lookup data =>
    obtain rfl := Option.some.inj hst
    exact ⟨_,rfl,cacheLookup_represents hc data⟩
  | insert data =>
    obtain ⟨inserted,c',hi,hc'⟩ := cacheInsert_represents hc data
    obtain rfl : some c' = state' := by simpa [CacheModel.step,hi] using hst
    exact ⟨c',rfl,hc'⟩

/-- Three files of which the cache of 4096 bytes can hold one. -/
def threeFiles : File → FileData
  | 0 => ⟨⟨[97],by decide⟩,3000⟩
  | 1 => ⟨⟨[98],by decide⟩,2000⟩
  | _ => ⟨⟨[99],by decide⟩,4096⟩

def afterInsertions : Option Cache :=
  final (CacheModel.step threeFiles) [.insert 0,.lookup 0,.insert 1,.insert 2] (some (initCache 4096))
    (by decide +kernel)

theorem afterInsertions_represented :
    (∃ c, afterInsertions = some c ∧ c.lruPolicy = [2] ∧
      c.removals = [⟨1,some 1⟩,⟨0,some 0⟩]) ∧
    ∃ c, afterInsertions = some c ∧ Represents threeFiles c := by
  have hc : (afterInsertions.map fun c => (c.lruPolicy,c.removals)) =
      some ([2],[⟨1,some 1⟩,⟨0,some 0⟩]) := by decide +kernel
  obtain ⟨c,hc,he⟩ := Option.map_eq_some_iff.mp hc
  obtain ⟨hl,hr⟩ := Prod.mk.inj he
  exact ⟨⟨c,hc,hl,hr⟩,cache_represented (by decide) (reachable_final .init fun _ _ _ => trivial)⟩

end CacheInvariant
end OsLabs

import OsLabs.CacheInvariant

/-!
# The index of a chain

`init_cache` makes two chains for every page of the limit, so none at all for a limit below one
page; `insert_to_cache` and `remove_from_cache` divide the hash by the number of chains. With at
least one chain the sign is corrected behind the remainder, and nothing overflows.
-/

namespace OsLabs
namespace BucketIndex

open CacheModel CacheInvariant Transition

/-- The remainder of the hash and the correction of its sign, in the type `long`; `none` stands
for a division by 0. -/
def chainIndex (arraySize : ℤ) (str : FileName) : Option (BitVec 64) :=
  if arraySize = 0 then none
  else
    let hash := (hashValue str).srem (BitVec.ofInt 64 arraySize)
    some (if hash.slt 0 then hash+BitVec.ofInt 64 arraySize else hash)

variable (files : File → FileData)

/-- The index in `insert_to_cache`, behind the test of the size of the file. -/
def insertIndex (data : File) (c : Cache) : Option (BitVec 64) :=
  chainIndex c.arraySize (files data).fileName

/-- The index in `remove_from_cache`. -/
def removeIndex (data : File) (c : Cache) : Option (BitVec 64) :=
  chainIndex c.arraySize (files data).fileName

/-- Both functions find the same index, without a division by 0, and it is one of the table. -/
structure IndexValid (data : File) (c : Cache) (hash : BitVec 64) : Prop where
  insert : c.maxSize.slt (files data).fileSize = false → insertIndex files data c = some hash
  remove : removeIndex files data c = some hash
  nonneg : 0 ≤ hash.toInt
  below : hash.toInt < c.arraySize

variable {files} {data elem : File} {c c' : Cache} {maxSize : BitVec 32} {arraySize : ℤ}

/-! ### The computation in 64 bits -/

theorem toInt_ofInt_64 (h₀ : 0 ≤ arraySize) (h₁ : arraySize < 2^32) :
    (BitVec.ofInt 64 arraySize).toInt = arraySize := by
  rw [BitVec.toInt_ofInt,Int.bmod_eq_of_le] <;> omega

theorem chainIndex_pos (h₀ : 0 < arraySize) (h₁ : arraySize < 2^32) (str : FileName) :
    ∃ hash, chainIndex arraySize str = some hash ∧ hash.toInt = bucket arraySize str := by
  have hsize := toInt_ofInt_64 h₀.le h₁
  have hrem : ((hashValue str).srem (BitVec.ofInt 64 arraySize)).toInt =
      (hashValue str).toInt.tmod arraySize := by
    rw [BitVec.toInt_srem,hsize]
  have hlow := Int.lt_tmod_of_pos (hashValue str).toInt h₀
  have hzero : (0 : BitVec 64).toInt = 0 := rfl
  refine ⟨_,if_neg h₀.ne',?_⟩
  simp only [bucket,BitVec.slt,hrem,hzero,decide_eq_true_eq]
  split
  · rw [BitVec.toInt_add,hrem,hsize,Int.bmod_eq_of_le] <;> omega
  · exact hrem

/-! ### The calls that use the index -/

/-- Without chains the insertion of a file that is not too large divides by 0. -/
theorem insertToCache_crashes (n : ℕ) (hsize : c.maxSize.slt (files data).fileSize = false)
    (hi : insertIndex files data c = none) : insertToCache files data (n+1) c = .crashes := by
  have hzero : c.arraySize = 0 := by
    by_contra hne
    simp [insertIndex,chainIndex,hne] at hi
  simp [insertToCache,hsize,hzero]

/-- `insert_to_cache` changes the table at its index only. -/
theorem insertToCache_frame {inserted : Bool} {n : ℕ}
    (h : insertToCache files data n c = .returns inserted c') {i : ℤ}
    (hi : i ≠ bucket c.arraySize (files data).fileName) : c'.mapping i = c.mapping i := by
  induction n with
  | zero => simp [insertToCache] at h
  | succ n ih =>
    have hevict : evictLoop files data (insertToCache files data n) c = .returns inserted c' →
        c'.mapping i = c.mapping i := by
      intro he
      unfold evictLoop at he
      split at he
      · exact ih he
      · split at he
        · exact ih he
        · split at he <;> simp at he
    unfold insertToCache at h
    split at h
    · simp only [Progress.returns.injEq] at h
      rw [h.2]
    · split at h
      · simp at h
      · dsimp only at h
        split at h
        · split at h
          · simp only [Progress.returns.injEq] at h
            simp [← h.2,hi]
          · exact hevict h
        · split at h
          · simp only [Progress.returns.injEq] at h
            rw [h.2]
          · split at h
            · simp only [Progress.returns.injEq] at h
              simp [← h.2,hi]
            · exact hevict h

/-- `remove_from_cache` changes the table at its index only. -/
theorem removeFromCache_frame {i : ℤ} (hi : i ≠ bucket c.arraySize (files data).fileName) :
    (removeFromCache files data c).mapping i = c.mapping i := by
  unfold removeFromCache
  dsimp only
  split
  · rfl
  · simp [hi]

/-! ### The number of chains -/

/-- Where `insert_to_cache` stops, the table has `n` chains. -/
def Chained (n : ℤ) : Progress → Prop
  | .returns _ c => c.arraySize = n
  | .removes _ c => c.arraySize = n
  | .crashes => True

theorem evictLoop_chained {insert : Cache → Progress} (hi : Chained c.arraySize (insert c)) :
    Chained c.arraySize (evictLoop files data insert c) := by
  unfold evictLoop
  split
  · exact hi
  · split
    · exact hi
    · split
      · trivial
      · rfl

theorem insertToCache_chained (n : ℕ) : Chained c.arraySize (insertToCache files data n c) := by
  induction n with
  | zero => trivial
  | succ n ih =>
    unfold insertToCache
    dsimp only
    repeat' split
    all_goals first | trivial | rfl | exact evictLoop_chained ih

theorem removeFromCache_arraySize : (removeFromCache files elem c).arraySize = c.arraySize := by
  unfold removeFromCache
  dsimp only
  split <;> rfl

theorem finishInsert_arraySize {n : ℕ} {size : ℤ} {p : Progress} {inserted : Bool}
    (hp : Chained size p) (h : finishInsert files data n p = some (inserted,c')) :
    c'.arraySize = size := by
  induction n generalizing p with
  | zero =>
    cases p with
    | returns b c =>
      simp only [finishInsert,Option.some.injEq,Prod.mk.injEq] at h
      exact h.2 ▸ hp
    | removes => simp [finishInsert] at h
    | crashes => simp [finishInsert] at h
  | succ n ih =>
    cases p with
    | returns b c =>
      simp only [finishInsert,Option.some.injEq,Prod.mk.injEq] at h
      exact h.2 ▸ hp
    | removes elem c =>
      refine ih ?_ h
      have hc : (removeFromCache files elem c).arraySize = size :=
        removeFromCache_arraySize.trans hp
      exact hc ▸ evictLoop_chained (insertToCache_chained _)
    | crashes => simp [finishInsert] at h

/-- The table keeps the chains that `init_cache` has given it. -/
theorem reachable_arraySize
    (h : Reachable (some (initCache maxSize)) (CacheModel.step files) (fun _ _ => True) (some c)) :
    c.arraySize = (initCache maxSize).arraySize := by
  have hall := h.invariant
    (P := fun state => ∀ c, state = some c → c.arraySize = (initCache maxSize).arraySize)
    (fun c hc => by rw [← Option.some.inj hc]) ?_
  · exact hall c rfl
  · intro state a state' ih _ hst c' hc'
    cases state with
    | none => simp [CacheModel.step] at hst
    | some c =>
      cases a with
      | lookup data =>
        obtain rfl := Option.some.inj (hc'.symm.trans (Option.some.inj hst).symm)
        unfold cacheLookup
        split <;> exact ih c rfl
      | insert data =>
        obtain ⟨⟨inserted,c''⟩,hi,he⟩ :=
          Option.map_eq_some_iff.mp ((Option.some.inj hst).trans hc')
        obtain rfl : c'' = c' := he
        exact (finishInsert_arraySize (insertToCache_chained _) hi).trans (ih c rfl)

theorem initCache_positive : 0 < (initCache maxSize).arraySize ↔ 4096 ≤ maxSize.toInt := by
  simp only [initCache]
  rcases le_total 0 maxSize.toInt with hm | hm
  · rw [Int.tdiv_eq_ediv_of_nonneg hm]
    omega
  · have hrest := Int.tmod_lt_of_pos maxSize.toInt (show (0 : ℤ) < 4096 by decide)
    have hlow := Int.lt_tmod_of_pos maxSize.toInt (show (0 : ℤ) < 4096 by decide)
    have hsum := Int.mul_tdiv_add_tmod maxSize.toInt 4096
    omega

theorem initCache_bounded : (initCache maxSize).arraySize < 2^32 := by
  have hhigh := BitVec.toInt_lt (x := maxSize)
  have hrest := Int.lt_tmod_of_pos maxSize.toInt (show (0 : ℤ) < 4096 by decide)
  have hsum := Int.mul_tdiv_add_tmod maxSize.toInt 4096
  simp only [initCache]
  omega

/-- The index for a file is valid at any time if and only if the limit is at least one page. -/
theorem index_valid_iff
    (h : Reachable (some (initCache maxSize)) (CacheModel.step files) (fun _ _ => True) (some c))
    (data : File) : (∃ hash, IndexValid files data c hash) ↔ 4096 ≤ maxSize.toInt := by
  rw [← initCache_positive]
  have hsize := reachable_arraySize h
  constructor
  · rintro ⟨hash,hv⟩
    have hlow := hv.nonneg
    have hhigh := hv.below
    omega
  · intro h₀
    obtain ⟨hash,hi,hb⟩ := chainIndex_pos h₀ initCache_bounded (files data).fileName
    rw [← hsize] at hi hb h₀
    obtain ⟨hlow,hhigh⟩ := bucket_range h₀ (files data).fileName
    exact ⟨hash,fun _ => hi,hi,hb ▸ hlow,hb ▸ hhigh⟩

theorem page_index_valid : ∃ hash, IndexValid threeFiles 1 (initCache 4096) hash :=
  (index_valid_iff .init 1).mpr (by decide)

/-- A limit of 4095 bytes leaves no chain to put a file into. -/
theorem small_limit_crashes :
    insertStart threeFiles 0 (initCache 4095) = .crashes ∧
      ¬ ∃ hash, IndexValid threeFiles 0 (initCache 4095) hash :=
  ⟨insertToCache_crashes 1 (by decide) (by decide),fun ⟨_,hv⟩ => by
    have hremove := hv.remove
    simp [removeIndex,chainIndex,initCache] at hremove⟩

end BucketIndex
end OsLabs

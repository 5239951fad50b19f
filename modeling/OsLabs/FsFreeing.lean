import Mathlib.Data.BitVec
import Mathlib.Tactic
import OsLabs.Bytes
import OsLabs.Wlp
import OsLabs.Holdings
import OsLabs.FsModel
import OsLabs.FsVolume
import OsLabs.FsAccounts
import OsLabs.FsRemoval
import OsLabs.Dirents
import OsLabs.DirOps
import OsLabs.FsReading
import OsLabs.FsWriting

/-!
# What the loops free

The loops of `testfs_free_blocks` are bounded by a number of blocks that is computed from the size
of the file. They free the blocks in the slots below this bound and no others, and no assertion in
them fails as long as the bound reaches beyond the direct blocks when there is an indirect block.
So an inode is removed exactly when the bound covers all its slots.
-/

namespace OsLabs
namespace FsFreeing

open Bytes FsModel FsVolume FsAccounts FsRemoval Dirents DirOps FsReading FsWriting Holdings

/-- The first value of `e_block_nr` for a file of this size. -/
def eBlockNr (size : ℤ) : ℤ := toInt32 ((toInt64 (size + blockSize - 1)).tdiv blockSize)

/-- The logical block that a slot is for; the indirect block comes with the first entry. -/
def Slot.nr : Slot → ℕ
  | .direct k => k.val
  | .indirect => nrDirectBlocks
  | .entry k => nrDirectBlocks + k.val

/-- The slots of the inode lie below a number of blocks. -/
def Covered (v : Volume) (i : ℕ) (e : ℤ) : Prop := ∀ l, ref v i l ≠ 0 → (Slot.nr l : ℤ) < e

/-- What is left in the slots after a loop from `k` to `e`. -/
def sweep {n : ℕ} (slot : Fin n → Slot) (e : ℤ) (k : ℕ) (f : Slot → ℕ) (l : Slot) : ℕ :=
  if ∃ j, l = slot j ∧ k ≤ j.val ∧ (j.val : ℤ) < e then 0 else f l

section Sweeps

variable {n k : ℕ} {slot : Fin n → Slot} {e : ℤ} {f : Slot → ℕ}

theorem sweep_of_not_lt (h : ¬(k : ℤ) < e) : sweep slot e k f = f := by
  funext l
  refine if_neg ?_
  rintro ⟨j,-,h1,h2⟩
  omega

theorem sweep_of_le (h : n ≤ k) : sweep slot e k f = f := by
  funext l
  refine if_neg ?_
  rintro ⟨j,-,h1,-⟩
  omega

theorem sweep_succ (hk : k < n) (he : (k : ℤ) < e) :
    sweep slot e (k+1) (Function.update f (slot ⟨k,hk⟩) 0) = sweep slot e k f := by
  funext l
  by_cases hl : l = slot ⟨k,hk⟩
  · have hk' : ∃ j, l = slot j ∧ k ≤ j.val ∧ (j.val : ℤ) < e := ⟨_,hl,le_rfl,he⟩
    rw [sweep,sweep,if_pos hk',hl,Function.update_self,ite_self]
  · have hiff : (∃ j, l = slot j ∧ k + 1 ≤ j.val ∧ (j.val : ℤ) < e) ↔
        ∃ j, l = slot j ∧ k ≤ j.val ∧ (j.val : ℤ) < e := by
      refine exists_congr fun j => and_congr_right fun hj => and_congr_left fun _ => ?_
      have hne : j.val ≠ k := fun hc => hl (hj.trans (congrArg slot (Fin.ext hc)))
      omega
    simp only [sweep,hiff,Function.update_of_ne hl]

theorem sweep_eq_zero_iff (l : Slot) :
    sweep slot e k f l = 0 ↔ (∃ j, l = slot j ∧ k ≤ j.val ∧ (j.val : ℤ) < e) ∨ f l = 0 := by
  rw [sweep]
  split
  · rename_i h
    exact ⟨fun _ => .inl h,fun _ => rfl⟩
  · rename_i h
    exact ⟨.inr,fun hc => hc.resolve_left h⟩

theorem sweep_of_ne {l : Slot} (h : ∀ j, l ≠ slot j) : sweep slot e k f l = f l := by
  refine if_neg ?_
  rintro ⟨j,hj,-⟩
  exact h j hj

end Sweeps

section Loops

variable {s : Testfs} {c : Memory} {i : ℕ} {u v : Volume} {m : ℕ → Slot → ℕ}

theorem freeSlot_total (hm : i ∈ c.dirty) (hs : Stands s c v) (hi : Held c i)
    (h : Freeing i u v m) {l : Slot} (hl : m i l ≠ 0) :
    Total (testfsFreeBlockFromInode i (m i l)) s (fun _ t => Dirty t i ∧ ∃ w, Stands t c w ∧
      Freeing i u w (assign m i l 0) ∧ w.inode i = countDown (v.inode i) ∧
      ∀ l', l' ≠ l → m i l' ≠ 0 → w.block (m i l') = v.block (m i l')) := by
  obtain ⟨h1,h2,hused⟩ := h.accounts.balanced.used_of_hold hl
  have hpos : 0 < v.usedBlocks.toNat := h.accounts.card_le {(i,l)} (by simpa using hl)
  exact (testfsFreeBlockFromInode_returns hs hi h1 h2 hused hpos).total (freeSlot_spec hm hs h hl)

theorem freeDirect_total (hm : i ∈ c.dirty) (hi : Held c i) (e : ℤ) (n k : ℕ)
    (hk : k + n = nrDirectBlocks) (hs : Stands s c v) (h : Freeing i u v (ref v)) :
    Total (freeDirect i e n k) s (fun _ t => ∃ w, Stands t c w ∧ Freeing i u w (ref w) ∧
      ref w i = sweep .direct e k (ref v i) ∧ (w.inode i).iSize = (v.inode i).iSize) := by
  induction n generalizing k s v with
  | zero => exact Total.pure ⟨v,hs,h,(sweep_of_le (by omega)).symm,rfl⟩
  | succ n ih =>
    rw [freeDirect]
    by_cases hlt : (k : ℤ) < e
    · have hk10 : k < nrDirectBlocks := by omega
      have hkk : Fin.ofNat nrDirectBlocks k = ⟨k,hk10⟩ := Fin.ext (Nat.mod_eq_of_lt hk10)
      rw [if_pos hlt]
      refine Total.bind (((inodeOf_returns hs hi).total (inodeOf_spec hs i)).mono ?_)
      rintro inode t ⟨rfl,-,hv⟩
      simp only
      rw [hv,hkk]
      by_cases h0 : ref v i (.direct ⟨k,hk10⟩) = 0
      · -- a hole
        rw [if_pos ((ref_eq_zero_iff i _).mp h0)]
        refine (ih (k+1) (by omega) hs h).mono fun _ t ht => ?_
        have hsame : Function.update (ref v i) (.direct ⟨k,hk10⟩) 0 = ref v i := by
          rw [← h0,Function.update_eq_self]
        rw [← sweep_succ hk10 hlt,hsame]
        exact ht
      · rw [if_neg fun hz => h0 ((ref_eq_zero_iff i _).mpr hz),h.accounts.toInt_direct]
        refine Total.bind ((freeSlot_total hm hs hi h h0).mono ?_)
        rintro _ t1 ⟨hd,w,hw,hf,hin,hblk⟩
        refine Total.bind (((modifyDinode_returns hw hi _).total
          (modifyDinode_spec hw hd _)).mono ?_)
        rintro _ t2 ⟨h2,-⟩
        obtain ⟨hf',hrow⟩ := hf.clear_direct hin hblk
        refine (ih (k+1) (by omega) h2 hf').mono ?_
        rintro _ t3 ⟨w',h3,hf3,hrow3,hsize⟩
        refine ⟨w',h3,hf3,?_,?_⟩
        · rw [hrow3,hrow,sweep_succ hk10 hlt]
        · rw [hsize,Volume.setInode_inode_self,hin]
          rfl
    · rw [if_neg hlt]
      exact Total.pure ⟨v,hs,h,(sweep_of_not_lt hlt).symm,rfl⟩

theorem freeEntries_total (hm : i ∈ c.dirty) (hi : Held c i) (e : ℤ) (n k : ℕ)
    (hk : k + n = nrIndirectBlocks) (block : Region) (hs : Stands s c v) (h : Freeing i u v m)
    (hrow : m i = rowOf (v.inode i) block) :
    Total (freeEntries i e n k block) s (fun _ t => ∃ w m', Stands t c w ∧ Freeing i u w m' ∧
      m' i = sweep .entry e k (m i)) := by
  induction n generalizing k block s v m with
  | zero => exact Total.pure ⟨v,m,hs,h,(sweep_of_le (by omega)).symm⟩
  | succ n ih =>
    rw [freeEntries]
    by_cases hlt : (k : ℤ) < e
    · have hkn : k < nrIndirectBlocks := by omega
      have hmk : m i (.entry ⟨k,hkn⟩) = (loadInt block k).toNat := by
        rw [hrow]
        rfl
      rw [if_pos hlt]
      by_cases h0 : m i (.entry ⟨k,hkn⟩) = 0
      · -- a hole
        have hzero : loadInt block k = 0 := BitVec.eq_of_toNat_eq (hmk.symm.trans h0)
        rw [if_pos hzero]
        refine (ih (k+1) (by omega) block hs h hrow).mono fun _ t ht => ?_
        have hsame : Function.update (m i) (.entry ⟨k,hkn⟩) 0 = m i := by
          rw [← h0,Function.update_eq_self]
        rw [← sweep_succ hkn hlt,hsame]
        exact ht
      · have hint : (loadInt block k).toInt = m i (.entry ⟨k,hkn⟩) := by
          rw [hmk]
          refine toInt_eq_toNat fun _ => ?_
          rw [← hmk]
          exact (h.accounts.range h0).2
        have hne : ¬loadInt block k = 0 := by
          intro hz
          rw [hz] at hint
          exact h0 (by simpa using hint.symm)
        rw [if_neg hne,hint]
        refine Total.bind ((freeSlot_total hm hs hi h h0).mono ?_)
        rintro _ t1 ⟨-,w,hw,hf,hin,-⟩
        have hrow1 : assign m i (.entry ⟨k,hkn⟩) 0 i = rowOf (w.inode i) (storeInt block k 0) := by
          rw [assign_row,hrow,hin]
          exact rowOf_clear _ block ⟨k,hkn⟩
        refine (ih (k+1) (by omega) (storeInt block k 0) hw hf hrow1).mono ?_
        rintro _ t2 ⟨w',m',h2,hf2,hrow2⟩
        refine ⟨w',m',h2,hf2,?_⟩
        rw [hrow2,assign_row,sweep_succ hkn hlt]
    · rw [if_neg hlt]
      exact Total.pure ⟨v,m,hs,h,(sweep_of_not_lt hlt).symm⟩

/-- The assertion before the loop over the entries. -/
theorem freeIndirect_fails (hs : Stands s c v) (h : Freeing i u v (ref v)) {e : ℤ}
    (hind : ref v i .indirect ≠ 0) (he : ¬0 < e) : ¬Returns (freeIndirect i e) s := by
  refine Wlp.not_returns ?_
  rw [freeIndirect,Wlp.bind_iff]
  refine (inodeOf_spec hs i).mono ?_
  rintro inode t ⟨rfl,-,hv⟩
  rw [hv,h.accounts.toInt_indirect,if_pos (by omega),Wlp.bind_iff,Wlp.guard_iff]
  exact fun hc => absurd hc he

theorem freeIndirect_total (hm : i ∈ c.dirty) (hi : Held c i) (hs : Stands s c v)
    (h : Freeing i u v (ref v)) (hback : ref v i .indirect ≠ 0 → ref v i .indirect < c.size) {e : ℤ}
    (he : ref v i .indirect ≠ 0 → 0 < e) :
    Total (freeIndirect i e) s (fun _ t => ∃ w m, Stands t c w ∧ Freeing i u w m ∧
      m i = Function.update (sweep .entry e 0 (ref v i)) .indirect 0) := by
  refine Total.bind (((inodeOf_returns hs hi).total (inodeOf_spec hs i)).mono ?_)
  rintro inode t ⟨rfl,-,hv⟩
  rw [hv,h.accounts.toInt_indirect]
  by_cases hind : ref v i .indirect = 0
  · rw [if_neg (by omega)]
    refine Total.pure ⟨v,_,hs,h,?_⟩
    have hentry : ∀ k, ref v i (.entry k) = 0 := fun k => by
      simp only [ref,if_pos ((indirect_eq_zero_iff i).mp hind)]
    funext l
    by_cases hl : l = .indirect
    · rw [hl,Function.update_self,hind]
    · rw [Function.update_of_ne hl,sweep]
      split
      · rename_i hj
        obtain ⟨j,rfl,-⟩ := hj
        exact hentry j
      · rfl
  · have hpos := he hind
    have hne' : ¬(v.inode i).iIndirect = 0 := fun hz => hind ((indirect_eq_zero_iff i).mpr hz)
    have hrow : ref v i = rowOf (v.inode i) (v.block (ref v i .indirect)) := by
      funext l
      cases l with
      | direct k => rfl
      | indirect => rfl
      | entry k => simp only [ref,rowOf,if_neg hne']
    rw [if_pos (by omega)]
    refine Total.bind (Total.guard hpos (Total.bind
      (((readBlocks_returns ((hback hind).trans_le hs.memory.size_le)).total
        (readBlocks_spec hs (by exact_mod_cast (h.accounts.range hind).1))).mono ?_)))
    rintro block t1 ⟨rfl,rfl⟩
    rw [Int.toNat_natCast]
    refine Total.bind ((freeEntries_total hm hi e nrIndirectBlocks 0 (Nat.zero_add _) _ hs h
      hrow).mono ?_)
    rintro _ t2 ⟨w,m,h2,hf2,hrow2⟩
    have hmi : m i .indirect = ref v i .indirect := by
      rw [hrow2]
      exact sweep_of_ne fun j => Slot.noConfusion
    rw [← hmi] at hind ⊢
    refine Total.bind ((freeSlot_total hm h2 hi hf2 hind).mono ?_)
    rintro _ t3 ⟨hd,w3,h3,hf3,-,-⟩
    refine ((modifyDinode_returns h3 hi _).total (modifyDinode_spec h3 hd _)).mono ?_
    rintro _ t4 ⟨h4,-⟩
    exact ⟨_,_,h4,hf3.set_inode _ rfl,by rw [assign_row,hrow2]⟩

end Loops

/-! ## Removing the inode -/

section Removing

variable {s : Testfs} {c : Memory} {i : ℕ} {v : Volume}

/-- The bound of the second loop, for a bound of the first one that is not negative. -/
theorem toInt32_sub_direct (size : ℤ) (h : 0 ≤ eBlockNr size) :
    toInt32 (eBlockNr size - nrDirectBlocks) = eBlockNr size - nrDirectBlocks := by
  have hlt := Int.bmod_lt (x := (toInt64 (size + blockSize - 1)).tdiv blockSize) (m := 2^32)
    (by norm_num)
  simp only [eBlockNr,toInt32] at *
  exact Int.bmod_eq_of_le (by simp only [nrDirectBlocks]; omega)
    (by simp only [nrDirectBlocks]; omega)

/-- What the two loops and the freeing of the indirect block leave. -/
def unfreed (v : Volume) (i : ℕ) (e : ℤ) : Slot → ℕ :=
  Function.update (sweep .entry (e - nrDirectBlocks) 0 (sweep .direct e 0 (ref v i))) .indirect 0

/-- Everything is freed exactly when the bound covers the slots. -/
theorem unfreed_eq_zero_iff {e : ℤ} (he : ref v i .indirect ≠ 0 → 0 < e - nrDirectBlocks) :
    (∀ l, unfreed v i e l = 0) ↔ Covered v i e := by
  refine forall_congr' fun l => ?_
  by_cases hl : l = .indirect
  · subst hl
    rw [unfreed,Function.update_self]
    refine ⟨fun _ h0 => ?_,fun _ => rfl⟩
    have := he h0
    simp only [Slot.nr]
    omega
  · rw [unfreed,Function.update_of_ne hl,sweep_eq_zero_iff,sweep_eq_zero_iff]
    cases l with
    | direct k =>
      simp only [reduceCtorEq,false_and,exists_false,false_or,Slot.direct.injEq,exists_eq_left',
        Nat.zero_le,true_and,Slot.nr]
      exact or_iff_not_imp_right
    | indirect => exact absurd rfl hl
    | entry k =>
      simp only [reduceCtorEq,false_and,exists_false,false_or,Slot.entry.injEq,exists_eq_left',
        Nat.zero_le,true_and,Slot.nr]
      rw [or_iff_not_imp_right,Nat.cast_add]
      exact imp_congr_right fun _ => ⟨fun h => by omega,fun h => by omega⟩

theorem testfsFreeBlocks_total (hm : i ∈ c.dirty) (hi : Held c i) (hs : Stands s c v)
    (h : Accounts v (ref v)) (hback : ref v i .indirect ≠ 0 → ref v i .indirect < c.size) {e : ℤ}
    (he : e = eBlockNr (v.inode i).iSize.toInt) (h0 : 0 ≤ e)
    (hind : ref v i .indirect ≠ 0 → 0 < e - nrDirectBlocks) :
    Total (testfsFreeBlocks i) s (fun _ t => ∃ w m, Stands t c w ∧ Freeing i v w m ∧
      m i = unfreed v i e) := by
  have hsub := toInt32_sub_direct _ (he ▸ h0)
  rw [← he] at hsub
  refine Total.bind (((inodeOf_returns hs hi).total (inodeOf_spec hs i)).mono ?_)
  rintro inode t ⟨rfl,-,hv⟩
  have he' : toInt32 ((toInt64 (inode.data.iSize.toInt + blockSize - 1)).tdiv blockSize) = e := by
    rw [hv,he]
    rfl
  simp only [he',hsub]
  refine Total.bind ((freeDirect_total hm hi e nrDirectBlocks 0 (Nat.zero_add _) hs
    (Freeing.start h i)).mono ?_)
  rintro _ t1 ⟨w,hw,hf,hrow,-⟩
  have hiw : ref w i .indirect = ref v i .indirect := by
    rw [hrow]
    exact sweep_of_ne fun j => Slot.noConfusion
  refine Total.bind ((freeIndirect_total hm hi hw hf (hiw ▸ hback) (hiw ▸ hind)).mono ?_)
  rintro _ t2 ⟨w',m,hw',hf',hrow'⟩
  rw [hrow] at hrow'
  by_cases hbig : 0 < toInt32 (e - nrDirectBlocks - nrIndirectBlocks)
  · rw [if_pos hbig]
    exact Total.pure ⟨w',m,hw',hf',hrow'⟩
  · rw [if_neg hbig]
    refine Total.bind (((modifyDirty_returns hw' hi _).total (modifyDirty_spec hw' hm _)).mono ?_)
    rintro _ t3 ⟨h3,-,-⟩
    exact Total.pure ⟨_,m,h3,hf'.set_inode _ rfl,hrow'⟩

/-- The assertion before the loop over the entries fails. -/
theorem testfsFreeBlocks_fails (hm : i ∈ c.dirty) (hi : Held c i) (hs : Stands s c v)
    (h : Accounts v (ref v)) {e : ℤ} (he : e = eBlockNr (v.inode i).iSize.toInt) (h0 : 0 ≤ e)
    (hind : ref v i .indirect ≠ 0) (hbad : ¬0 < e - nrDirectBlocks) :
    ¬Returns (testfsFreeBlocks i) s := by
  have hsub := toInt32_sub_direct _ (he ▸ h0)
  rw [← he] at hsub
  refine Wlp.not_returns ?_
  rw [testfsFreeBlocks,Wlp.bind_iff]
  refine (inodeOf_spec hs i).mono ?_
  rintro inode t ⟨rfl,-,hv⟩
  have he' : toInt32 ((toInt64 (inode.data.iSize.toInt + blockSize - 1)).tdiv blockSize) = e := by
    rw [hv,he]
    rfl
  simp only [he',hsub]
  rw [Wlp.bind_iff]
  refine (freeDirect_total hm hi e nrDirectBlocks 0 (Nat.zero_add _) hs
    (Freeing.start h i)).wlp.mono ?_
  rintro _ t1 ⟨w,hw,hf,hrow,-⟩
  have hiw : ref w i .indirect = ref v i .indirect := by
    rw [hrow]
    exact sweep_of_ne fun j => Slot.noConfusion
  rw [Wlp.bind_iff]
  intro r t2 hr2
  exact absurd ⟨r,t2,hr2⟩ (freeIndirect_fails hw hf (hiw ▸ hind) hbad)

/-- `testfs_remove_inode` returns exactly when the bound covers all slots. -/
theorem testfsRemoveInode_returns_iff (hm : i ∈ c.dirty) (hi : Held c i) (hs : Stands s c v)
    (h : Accounts v (ref v)) (hback : ref v i .indirect ≠ 0 → ref v i .indirect < c.size)
    (h0 : 0 ≤ eBlockNr (v.inode i).iSize.toInt) (hused : v.inodeUsed i = true)
    (hpos : 0 < v.usedInodes.toNat) :
    Returns (testfsRemoveInode i) s ↔ Covered v i (eBlockNr (v.inode i).iSize.toInt) := by
  obtain ⟨e,he⟩ : ∃ e, e = eBlockNr (v.inode i).iSize.toInt := ⟨_,rfl⟩
  rw [← he] at h0 ⊢
  by_cases hind : ref v i .indirect ≠ 0 → 0 < e - nrDirectBlocks
  · have hfree := testfsFreeBlocks_total hm hi hs h hback he h0 hind
    have hzero : ∀ {w : Volume} {m : ℕ → Slot → ℕ}, Freeing i v w m → m i = unfreed v i e →
        ((w.inode i).blockCount = 0 ↔ Covered v i e) := by
      intro w m hf hrow
      rw [← unfreed_eq_zero_iff hind,← hrow]
      have hc := hf.accounts.count i
      constructor
      · intro hb l
        rw [hb] at hc
        exact held_eq_zero.mp hc.symm l (Finset.mem_univ l)
      · intro hall
        rw [held_eq_zero.mpr fun l _ => hall l] at hc
        exact BitVec.eq_of_toNat_eq hc
    constructor
    · rintro ⟨_,t,hr⟩
      have hcov : Wlp (testfsRemoveInode i) s fun _ _ => Covered v i e := by
        rw [testfsRemoveInode,testfsRemoveInodeWith,Wlp.bind_iff]
        refine hfree.wlp.mono ?_
        rintro _ t1 ⟨w,m,hw,hf,hrow⟩
        rw [Wlp.bind_iff]
        refine (inodeOf_spec hw i).mono ?_
        rintro inode t2 ⟨rfl,-,hv⟩
        rw [Wlp.bind_iff,Wlp.liftM_iff,Wlp.guard_iff,hv]
        exact fun hb _ _ _ => (hzero hf hrow).mp hb
      exact hcov _ _ hr
    · intro hcov
      have hlt : i < 2^16 := by
        have := lt_of_held hs hi
        simp only [nrInodes] at this
        omega
      refine Returns.bind hfree.returns (hfree.wlp.mono ?_)
      rintro _ t1 ⟨w,m,hw,hf,hrow⟩
      refine Returns.bind (inodeOf_returns hw hi) ((inodeOf_spec hw i).mono ?_)
      rintro inode t2 ⟨rfl,-,hv⟩
      have hb : inode.data.blockCount = 0 := by
        rw [hv]
        exact (hzero hf hrow).mpr hcov
      refine Returns.bind (Returns.guard hb t2) (Wlp.guard_iff.mpr fun _ => ?_)
      refine Returns.bind (modifyDirty_returns hw hi _) ((modifyDirty_spec hw hm _).mono ?_)
      rintro _ t3 ⟨h3,-,-⟩
      have hused' : w.inodeUsed i = true := by
        rw [hf.frame.inodeUsed]
        exact hused
      have hpos' : 0 < w.usedInodes.toNat := by
        rw [hf.frame.usedInodes]
        exact hpos
      refine Returns.bind (testfsPutInodeFreemap_returns h3 hlt hused' hpos')
        ((testfsPutInodeFreemap_spec h3 i).mono ?_)
      rintro _ t4 ⟨-,-,h4⟩
      refine Returns.bind (testfsSyncInode_returns h4 hi) ((testfsSyncInode_spec h4 i).mono ?_)
      intro _ t5 h5
      exact testfsPutInode_returns h5 hi fun hx => (h5.memory.dirty_mem i hx).2 rfl
  · push Not at hind
    have hbad := testfsFreeBlocks_fails hm hi hs h he h0 hind.1 (by omega)
    constructor
    · rintro ⟨_,t,hr⟩
      simp only [testfsRemoveInode,testfsRemoveInodeWith,monadLift_self] at hr
      rw [StateT.run_bind] at hr
      cases hf : (testfsFreeBlocks i).run s with
      | none => rw [hf] at hr; cases hr
      | some p => exact absurd ⟨p.1,p.2,hf⟩ hbad
    · intro hcov
      have := hcov .indirect hind.1
      simp only [Slot.nr] at this
      omega

end Removing
end FsFreeing
end OsLabs

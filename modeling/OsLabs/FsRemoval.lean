import Mathlib.Data.BitVec
import Mathlib.Tactic
import OsLabs.Bytes
import OsLabs.Wlp
import OsLabs.Holdings
import OsLabs.FsModel
import OsLabs.FsVolume
import OsLabs.FsAccounts

/-!
# Removing an inode

While `testfs_free_blocks` runs, the blocks of the inode that are still to be freed are in its
row of `m`: the ones in its direct slots, its indirect block, and the entries of the copy of the
indirect block that the loop clears. The assertion that `block_count` is 0 then says that the
row is empty, whatever part of the file the loops went through.
-/

namespace OsLabs
namespace FsRemoval

open Bytes BitmapModel FsModel FsVolume FsAccounts Holdings

/-- The inode `i` of the volume `u` is being freed; `m` is what is still held. -/
structure Freeing (i : ℕ) (u v : Volume) (m : ℕ → Slot → ℕ) : Prop where
  accounts : Accounts v m
  frame : Frame i u v
  rows : ∀ j, j ≠ i → m j = ref v j

section Steps

variable {i : ℕ} {u v w : Volume} {m : ℕ → Slot → ℕ}

theorem Freeing.start (h : Accounts v (ref v)) (i : ℕ) : Freeing i v v (ref v) :=
  ⟨h,Frame.refl i v,fun _ _ => rfl⟩

/-- A change of the inode that keeps its block count. -/
theorem Freeing.set_inode (h : Freeing i u v m) (d : Dinode)
    (hd : d.blockCount = (v.inode i).blockCount) : Freeing i u (v.setInode i d) m := by
  have hother : ∀ j, j ≠ i → (v.setInode i d).inode j = v.inode j :=
    fun j hj => Volume.setInode_inode_of_ne _ _ _ hj
  have hrows : ∀ j, j ≠ i → ref (v.setInode i d) j = ref v j ∧
      logical (v.setInode i d) j = logical v j :=
    fun j hj => row_congr (hother j hj) (fun _ _ => rfl)
  refine ⟨?_,h.frame.trans ⟨hother,fun j hj => (hrows j hj).1,fun j hj => (hrows j hj).2,
    rfl,rfl,rfl,rfl⟩,?_⟩
  · refine h.accounts.congr rfl rfl rfl ?_ h.accounts.free
    intro j
    by_cases hj : j = i
    · rw [hj,Volume.setInode_inode_self,hd]
    · rw [hother j hj]
  · intro j hj
    rw [(hrows j hj).1]
    exact h.rows j hj

theorem Freeing.free (h : Freeing i u v m) {l : Slot} (hl : m i l ≠ 0) :
    Freeing i u (((v.setBlock (m i l) (fun _ => 0)).dropBlock (m i l - dataStart)).setInode i
      (countDown (v.inode i))) (assign m i l 0) := by
  obtain ⟨hr1,hr2,-⟩ := h.accounts.balanced.used_of_hold hl
  have hother : ∀ j, j ≠ i → (((v.setBlock (m i l) (fun _ => 0)).dropBlock
      (m i l - dataStart)).setInode i (countDown (v.inode i))).inode j = v.inode j :=
    fun j hj => Volume.setInode_inode_of_ne _ _ _ hj
  have hrows : ∀ j, j ≠ i → ref (((v.setBlock (m i l) (fun _ => 0)).dropBlock
      (m i l - dataStart)).setInode i (countDown (v.inode i))) j = ref v j ∧
      logical (((v.setBlock (m i l) (fun _ => 0)).dropBlock
        (m i l - dataStart)).setInode i (countDown (v.inode i))) j = logical v j := by
    intro j hj
    refine row_congr (hother j hj) ?_
    intro l' hne
    refine Volume.setBlock_block_of_ne _ _ _ ?_
    rw [← h.rows j hj] at hne ⊢
    intro he
    exact hj (h.accounts.balanced.unique j l' i l hne he).1
  refine ⟨?_,h.frame.trans ⟨hother,fun j hj => (hrows j hj).1,fun j hj => (hrows j hj).2,
    rfl,rfl,rfl,rfl⟩,?_⟩
  · refine h.accounts.drop hl rfl rfl rfl (by simp [countDown])
      (fun j hj => by rw [hother j hj]) ?_
    intro k hk hfree
    by_cases hkb : dataStart + k = m i l
    · rw [hkb]
      exact Volume.setBlock_block_self ..
    · have hk' : k ≠ m i l - dataStart := by omega
      have hfree' : v.blockUsed k = false := by
        have hu : Function.update v.blockUsed (m i l - dataStart) false k = false := hfree
        rwa [Function.update_of_ne hk'] at hu
      rw [← h.accounts.free k hk hfree']
      exact Volume.setBlock_block_of_ne _ _ _ hkb
  · intro j hj
    rw [(hrows j hj).1,assign_row_of_ne m l 0 hj]
    exact h.rows j hj

/-- The number of a direct block that was freed is cleared, and what is held is again what the
inode refers to. -/
theorem Freeing.clear_direct {k : Fin nrDirectBlocks}
    (h : Freeing i u w (assign (ref v) i (.direct k) 0)) (hi : w.inode i = countDown (v.inode i))
    (hblk : ∀ l, l ≠ .direct k → ref v i l ≠ 0 → w.block (ref v i l) = v.block (ref v i l)) :
    Freeing i u (w.setInode i { w.inode i with
      iBlockNr := Function.update (w.inode i).iBlockNr k 0 }) (ref (w.setInode i { w.inode i with
      iBlockNr := Function.update (w.inode i).iBlockNr k 0 })) ∧
    ref (w.setInode i { w.inode i with
      iBlockNr := Function.update (w.inode i).iBlockNr k 0 }) i =
        Function.update (ref v i) (.direct k) 0 := by
  have hf := h.set_inode { w.inode i with
    iBlockNr := Function.update (w.inode i).iBlockNr k 0 } rfl
  have hself : ref (w.setInode i { w.inode i with
      iBlockNr := Function.update (w.inode i).iBlockNr k 0 }) i =
      Function.update (ref v i) (.direct k) 0 := by
    funext l
    cases l with
    | direct k' =>
      by_cases hkk : k' = k
      · subst hkk
        simp [ref]
      · rw [Function.update_of_ne (by simpa using hkk)]
        simp only [ref,Volume.setInode_inode_self,Function.update_of_ne hkk,hi,countDown]
    | indirect =>
      rw [Function.update_of_ne (by simp)]
      simp only [ref,Volume.setInode_inode_self,hi,countDown]
    | entry k' =>
      rw [Function.update_of_ne (by simp)]
      simp only [ref,Volume.setInode_inode_self,Volume.setInode_block,hi,countDown]
      by_cases hz : (v.inode i).iIndirect = 0
      · rw [if_pos hz,if_pos hz]
      · have hb := hblk .indirect (by simp) (fun h1 => hz ((indirect_eq_zero_iff i).mp h1))
        simp only [ref] at hb
        rw [if_neg hz,if_neg hz,hb]
  have hrow : assign (ref v) i (.direct k) 0 = ref (w.setInode i { w.inode i with
      iBlockNr := Function.update (w.inode i).iBlockNr k 0 }) := by
    funext j
    by_cases hj : j = i
    · rw [hj,assign_row,hself]
    · exact hf.rows j hj
  rw [hrow] at hf
  exact ⟨hf,hself⟩

end Steps

section Functions

variable {s : Testfs} {c : Memory} {i : ℕ} {u v : Volume} {m : ℕ → Slot → ℕ}

theorem freeSlot_spec (hm : i ∈ c.dirty) (hs : Stands s c v) (h : Freeing i u v m) {l : Slot} (hl : m i l ≠ 0) :
    Wlp (testfsFreeBlockFromInode i (m i l)) s (fun _ t => Dirty t i ∧ ∃ w, Stands t c w ∧
      Freeing i u w (assign m i l 0) ∧ w.inode i = countDown (v.inode i) ∧
      ∀ l', l' ≠ l → m i l' ≠ 0 → w.block (m i l') = v.block (m i l')) := by
  obtain ⟨hr1,hr2⟩ := h.accounts.range hl
  have hlt : m i l < 2^31 := by
    simp only [dataStart,nrBlocks] at hr2
    omega
  refine (testfsFreeBlockFromInode_spec hs hm hr1 hlt).mono ?_
  rintro _ t ⟨-,-,-,hd,ht⟩
  refine ⟨hd,_,ht,h.free hl,Volume.setInode_inode_self ..,?_⟩
  intro l' hne h0
  refine Volume.setBlock_block_of_ne _ _ _ ?_
  intro he
  exact hne (h.accounts.balanced.unique i l' i l h0 he).2

theorem freeDirect_spec (hm : i ∈ c.dirty) (e : ℤ) (n k : ℕ) (hs : Stands s c v) (h : Freeing i u v (ref v)) :
    Wlp (freeDirect i e n k) s (fun _ t => ∃ w, Stands t c w ∧ Freeing i u w (ref w)) := by
  induction n generalizing k s v with
  | zero => exact Wlp.pure_iff.mpr ⟨v,hs,h⟩
  | succ n ih =>
    rw [freeDirect,Wlp.ite_iff]
    refine ⟨fun _ => ?_,fun _ => Wlp.pure_iff.mpr ⟨v,hs,h⟩⟩
    rw [Wlp.bind_iff]
    refine (inodeOf_spec hs i).mono ?_
    rintro inode t ⟨rfl,-,hv⟩
    simp only
    rw [hv,Wlp.ite_iff]
    refine ⟨fun _ => ih (k+1) hs h,fun h0 => ?_⟩
    have hne : ref v i (.direct (Fin.ofNat nrDirectBlocks k)) ≠ 0 :=
      fun hz => h0 ((ref_eq_zero_iff i _).mp hz)
    rw [h.accounts.toInt_direct]
    simp only [Wlp.bind_iff]
    refine (freeSlot_spec hm hs h hne).mono ?_
    rintro _ t1 ⟨hd,w,hw,hf,hi,hblk⟩
    refine (modifyDinode_spec hw hd _).mono ?_
    rintro _ t2 ⟨h2,-⟩
    have hf' := (hf.clear_direct hi hblk).1
    exact ih (k+1) h2 hf'

/-- The row of an inode whose indirect block has been read into `block`. -/
def rowOf (d : Dinode) (block : Region) : Slot → ℕ
  | .direct k => (d.iBlockNr k).toNat
  | .indirect => d.iIndirect.toNat
  | .entry k => (loadInt block k.val).toNat

/-- An entry of the copy of the indirect block is cleared. -/
theorem rowOf_clear (d : Dinode) (block : Region) (k : Fin nrIndirectBlocks) :
    Function.update (rowOf d block) (.entry k) 0 = rowOf (countDown d) (storeInt block k.val 0) := by
  funext l
  cases l with
  | direct k' => rw [Function.update_of_ne (by simp)]; rfl
  | indirect => rw [Function.update_of_ne (by simp)]; rfl
  | entry k' =>
    by_cases hkk : k' = k
    · subst hkk
      simp [rowOf,loadInt_storeInt]
    · have hv : ¬k'.val = k.val := fun he => hkk (Fin.ext he)
      rw [Function.update_of_ne (by simpa using hkk)]
      simp only [rowOf,loadInt_storeInt,if_neg hv]

theorem freeEntries_spec (hd : i ∈ c.dirty) (e : ℤ) (n k : ℕ) (hn : k + n ≤ nrIndirectBlocks)
    (block : Region) (hs : Stands s c v) (h : Freeing i u v m) (hm : m i = rowOf (v.inode i) block) :
    Wlp (freeEntries i e n k block) s (fun block' t => ∃ w m', Stands t c w ∧ Freeing i u w m' ∧
      m' i = rowOf (w.inode i) block' ∧ (w.inode i).iIndirect = (v.inode i).iIndirect) := by
  induction n generalizing k block s v m with
  | zero => exact Wlp.pure_iff.mpr ⟨v,m,hs,h,hm,rfl⟩
  | succ n ih =>
    rw [freeEntries,Wlp.ite_iff]
    refine ⟨fun _ => ?_,fun _ => Wlp.pure_iff.mpr ⟨v,m,hs,h,hm,rfl⟩⟩
    rw [Wlp.ite_iff]
    refine ⟨fun _ => ih (k+1) (by omega) block hs h hm,fun h0 => ?_⟩
    have hk : k < nrIndirectBlocks := by omega
    have hmk : m i (.entry ⟨k,hk⟩) = (loadInt block k).toNat := by
      rw [hm]
      rfl
    have hne : m i (.entry ⟨k,hk⟩) ≠ 0 := by
      rw [hmk]
      intro hz
      exact h0 (BitVec.eq_of_toNat_eq (by simpa using hz))
    have hint : (loadInt block k).toInt = m i (.entry ⟨k,hk⟩) := by
      rw [hmk]
      refine toInt_eq_toNat (fun _ => ?_)
      rw [← hmk]
      exact (h.accounts.range hne).2
    rw [hint,Wlp.bind_iff]
    refine (freeSlot_spec hd hs h hne).mono ?_
    rintro _ t1 ⟨-,w,hw,hf,hi,-⟩
    have hrow : assign m i (.entry ⟨k,hk⟩) 0 i = rowOf (w.inode i) (storeInt block k 0) := by
      rw [assign_row,hm,hi]
      exact rowOf_clear _ block ⟨k,hk⟩
    refine (ih (k+1) (by omega) (storeInt block k 0) hw hf hrow).mono ?_
    rintro block' t2 ⟨w',m',h1,h2,h3,h4⟩
    refine ⟨w',m',h1,h2,h3,?_⟩
    rw [h4,hi]
    rfl

theorem freeIndirect_spec (hm : i ∈ c.dirty) (e : ℤ) (hs : Stands s c v) (h : Freeing i u v (ref v)) :
    Wlp (freeIndirect i e) s (fun _ t => ∃ w m, Stands t c w ∧ Freeing i u w m) := by
  rw [freeIndirect,Wlp.bind_iff]
  refine (inodeOf_spec hs i).mono ?_
  rintro inode t ⟨rfl,-,hv⟩
  rw [hv,h.accounts.toInt_indirect,Wlp.ite_iff]
  refine ⟨fun hpos => ?_,fun _ => Wlp.pure_iff.mpr ⟨v,_,hs,h⟩⟩
  have hne : ref v i .indirect ≠ 0 := by omega
  have hne' : ¬(v.inode i).iIndirect = 0 := fun hz => hne ((indirect_eq_zero_iff i).mpr hz)
  simp only [Wlp.bind_iff,Wlp.guard_iff]
  intro _
  refine (readBlocks_spec hs (by exact_mod_cast (h.accounts.range hne).1)).mono ?_
  rintro block t1 ⟨rfl,rfl⟩
  rw [Int.toNat_natCast]
  have hrow : ref v i = rowOf (v.inode i) (v.block (ref v i .indirect)) := by
    funext l
    cases l with
    | direct k => rfl
    | indirect => rfl
    | entry k => simp only [ref,rowOf,if_neg hne']
  refine (freeEntries_spec hm e nrIndirectBlocks 0 (by simp) _ hs h hrow).mono ?_
  rintro block' t2 ⟨w,m',h1,h2,h3,h4⟩
  have hmi : m' i .indirect = ref v i .indirect := by
    rw [h3]
    simp only [rowOf,ref,h4]
  rw [← hmi] at hne ⊢
  refine (freeSlot_spec hm h1 h2 hne).mono ?_
  rintro _ t3 ⟨hd,w',hw',hf,-,-⟩
  refine (modifyDinode_spec hw' hd _).mono ?_
  rintro _ t4 ⟨h5,-⟩
  exact ⟨_,_,h5,hf.set_inode _ rfl⟩

theorem testfsFreeBlocks_spec (hm : i ∈ c.dirty) (hs : Stands s c v) (h : Accounts v (ref v)) :
    Wlp (testfsFreeBlocks i) s (fun _ t => ∃ w m, Stands t c w ∧ Freeing i v w m) := by
  rw [testfsFreeBlocks,Wlp.bind_iff]
  refine (inodeOf_spec hs i).mono ?_
  rintro inode t ⟨rfl,-,-⟩
  simp only [Wlp.bind_iff]
  refine (freeDirect_spec hm _ _ _ hs (Freeing.start h i)).mono ?_
  rintro _ t1 ⟨w,hw,hf⟩
  refine (freeIndirect_spec hm _ hw hf).mono ?_
  rintro _ t2 ⟨w',m,hw',hf'⟩
  rw [Wlp.ite_iff]
  refine ⟨fun _ => Wlp.pure_iff.mpr ⟨w',m,hw',hf'⟩,fun _ => ?_⟩
  rw [Wlp.bind_iff]
  refine (modifyDirty_spec hw' hm _).mono ?_
  rintro _ t3 ⟨h3,-,-⟩
  exact Wlp.pure_iff.mpr ⟨_,m,h3,hf'.set_inode _ rfl⟩

/-- The inode `i` is gone, with everything it held. -/
structure Removed (i : ℕ) (v w : Volume) : Prop where
  accounts : Accounts w (ref w)
  self : w.inode i = Dinode.zero
  inode : ∀ j, j ≠ i → w.inode j = v.inode j
  ref_self : ∀ l, ref w i l = 0
  ref : ∀ j, j ≠ i → ref w j = ref v j
  logical : ∀ j, j ≠ i → logical w j = logical v j
  disk : w.disk = Function.update v.disk i Dinode.zero
  was_used : v.inodeUsed i = true
  inodeUsed : w.inodeUsed = Function.update v.inodeUsed i false
  usedInodes : w.usedInodes = v.usedInodes - 1
  maxBlocks : w.maxBlocks = v.maxBlocks

/-- An inode with nothing left to free is zeroed. -/
theorem Freeing.finish {w : Volume} (h : Freeing i u v m) (h0 : (v.inode i).blockCount = 0)
    (hused : u.inodeUsed i = true) (hw : w = ((v.setInode i Dinode.zero).dropInode i).sync i) :
    Removed i u w := by
  have hempty : ∀ l, m i l = 0 := by
    have hc := h.accounts.count i
    rw [h0] at hc
    intro l
    exact (held_eq_zero.mp hc.symm) l (Finset.mem_univ l)
  have hf := h.set_inode Dinode.zero (by rw [h0]; rfl)
  have href : m = ref w := by
    funext j
    by_cases hj : j = i
    · subst hj
      funext l
      rw [hempty l,hw]
      cases l <;> simp [ref,Dinode.zero]
    · rw [hw]
      exact hf.rows j hj
  have hself : w.inode i = Dinode.zero := by
    rw [hw]
    exact Volume.setInode_inode_self ..
  refine ⟨?_,hself,?_,?_,?_,?_,?_,hused,?_,?_,?_⟩
  · rw [← href,hw]
    exact hf.accounts.congr rfl rfl rfl (fun _ => rfl) hf.accounts.free
  · intro j hj
    rw [hw]
    exact hf.frame.inode j hj
  · intro l
    rw [← href]
    exact hempty l
  · intro j hj
    rw [hw]
    exact hf.frame.ref j hj
  · intro j hj
    rw [hw]
    exact hf.frame.logical j hj
  · rw [hw]
    show Function.update v.disk i _ = _
    rw [h.frame.disk,Volume.dropInode_inode,Volume.setInode_inode_self]
  · rw [hw]
    show Function.update v.inodeUsed i false = _
    rw [h.frame.inodeUsed]
  · rw [hw]
    show v.usedInodes - 1 = _
    rw [h.frame.usedInodes]
  · rw [hw]
    exact h.frame.maxBlocks

theorem testfsRemoveInode_spec (hm : i ∈ c.dirty) (hs : Stands s c v) (h : Accounts v (ref v)) :
    Wlp (testfsRemoveInode i) s (fun _ t => ∃ w, Stands t (c.release i) w ∧ Removed i v w) := by
  simp only [testfsRemoveInode,testfsRemoveInodeWith,Wlp.bind_iff,monadLift_self]
  refine (testfsFreeBlocks_spec hm hs h).mono ?_
  rintro _ t ⟨w,m,hw,hf⟩
  refine (inodeOf_spec hw i).mono ?_
  rintro inode t1 ⟨rfl,-,hv⟩
  rw [Wlp.guard_iff,hv]
  intro h0
  refine (modifyDirty_spec hw hm _).mono ?_
  rintro _ t2 ⟨h2,-,-⟩
  refine (testfsPutInodeFreemap_spec h2 i).mono ?_
  rintro _ t3 ⟨hused,-,h3⟩
  refine (testfsSyncInode_spec h3 i).mono ?_
  intro _ t4 h4
  refine (testfsPutInode_spec h4.of_clean i).mono ?_
  intro _ t5 h5
  have hu : v.inodeUsed i = true := by
    rw [← hf.frame.inodeUsed]
    exact hused
  exact ⟨_,h5,hf.finish h0 hu rfl⟩

end Functions

end FsRemoval
end OsLabs

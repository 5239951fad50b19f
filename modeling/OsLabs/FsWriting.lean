import Mathlib.Data.BitVec
import Mathlib.Tactic
import OsLabs.Bytes
import OsLabs.BitmapModel
import OsLabs.Wlp
import OsLabs.FsModel
import OsLabs.DirModel
import OsLabs.FsVolume
import OsLabs.FsAccounts
import OsLabs.Dirents
import OsLabs.DirMap
import OsLabs.DirOps
import OsLabs.FsReading

/-!
# Writing returns

The functions that allocate and write blocks return, whether there is room or not. No assertion
on the way fails when the file system is valid, the inode is held in memory and the number of the
block is not negative. A block that is not there is allocated exactly when there is room for it
and for the indirect block that it needs.
-/

namespace OsLabs
namespace FsWriting

open Bytes BitmapModel FsModel DirModel FsVolume FsAccounts Dirents DirMap DirOps FsReading

/-! ## Free maps -/

section Maps

variable {s : Testfs} {c : Memory} {v : Volume} {i : ℕ}

theorem writeBlocks_returns {r : Region} {b : ℤ} (hb : 0 ≤ b) (s : Testfs) :
    Returns (writeBlocks r b) s :=
  Returns.bind (Returns.guard hb s) fun _ t _ => Returns.modify _ t

theorem testfsWriteSuperBlock_returns (s : Testfs) : Returns testfsWriteSuperBlock s :=
  Returns.bind (Returns.get s) fun _ t _ => writeBlocks_returns le_rfl t

theorem testfsWriteInodeFreemap_returns (k : ℕ) (s : Testfs) :
    Returns (testfsWriteInodeFreemap k) s :=
  Returns.bind (Returns.get s) fun _ t _ => writeBlocks_returns (by positivity) t

theorem testfsWriteBlockFreemap_returns (k : ℕ) (s : Testfs) :
    Returns (testfsWriteBlockFreemap k) s :=
  Returns.bind (Returns.get s) fun _ t _ => writeBlocks_returns (by positivity) t

theorem testfsGetBlockFreemap_returns (hs : Stands s c v) : Returns testfsGetBlockFreemap s := by
  have hbits := hs.coherent.blockBits
  obtain ⟨r,hr⟩ := Option.isSome_iff_exists.mp
    (bitmapAlloc_isSome (b := s.blockFreemap) (by rw [hbits]; norm_num) (by rw [hbits]; norm_num))
  refine Returns.bind (Returns.get s) (Wlp.get_iff.mpr ?_)
  refine Returns.bind (Returns.lift hr s) fun r t _ => ?_
  cases r with
  | none => exact Returns.pure _ t
  | some p =>
    refine Returns.bind (Returns.modify _ t) fun _ t1 _ => ?_
    exact Returns.bind (testfsWriteBlockFreemap_returns _ t1) fun _ t2 _ => Returns.pure _ t2

theorem testfsGetInodeFreemap_returns (hs : Stands s c v) : Returns testfsGetInodeFreemap s := by
  have hbits := hs.coherent.inodeBits
  obtain ⟨r,hr⟩ := Option.isSome_iff_exists.mp
    (bitmapAlloc_isSome (b := s.inodeFreemap) (by rw [hbits]; norm_num) (by rw [hbits]; norm_num))
  refine Returns.bind (Returns.get s) (Wlp.get_iff.mpr ?_)
  refine Returns.bind (Returns.lift hr s) fun r t _ => ?_
  cases r with
  | none => exact Returns.pure _ t
  | some p =>
    refine Returns.bind (Returns.modify _ t) fun _ t1 _ => ?_
    refine Returns.bind (testfsWriteInodeFreemap_returns _ t1) fun _ t2 _ => ?_
    refine Returns.bind (Returns.modify _ t2) fun _ t3 _ => ?_
    exact Returns.bind (testfsWriteSuperBlock_returns t3) fun _ t4 _ => Returns.pure _ t4

theorem testfsAllocBlock_returns (hs : Stands s c v) : Returns testfsAllocBlock s := by
  refine Returns.bind (Returns.get s) (Wlp.get_iff.mpr ?_)
  refine Returns.ite (fun _ => Returns.pure _ s) fun _ => ?_
  refine Returns.bind (testfsGetBlockFreemap_returns hs) fun r t _ => ?_
  cases r with
  | none => exact Returns.pure _ t
  | some k =>
    refine Returns.bind (Returns.modify _ t) fun _ t1 _ => ?_
    exact Returns.bind (testfsWriteSuperBlock_returns t1) fun _ t2 _ => Returns.pure _ t2

theorem testfsPutBlockFreemap_returns (hs : Stands s c v) {k : ℕ} (hk : k < 2^20)
    (hused : v.blockUsed k = true) : Returns (testfsPutBlockFreemap k) s := by
  rw [← hs.coherent.blockBits] at hk
  rw [← hs.blockUsed_eq,bits_of_lt hk] at hused
  obtain ⟨b,hb⟩ := Option.isSome_iff_exists.mp (bitmapUnmark_isSome hk hused)
  refine Returns.bind (Returns.get s) (Wlp.get_iff.mpr ?_)
  refine Returns.bind (Returns.lift hb s) fun _ t _ => ?_
  exact Returns.bind (Returns.modify _ t) fun _ t1 _ => testfsWriteBlockFreemap_returns _ t1

theorem testfsPutInodeFreemap_returns (hs : Stands s c v) {k : ℕ} (hk : k < 2^16)
    (hused : v.inodeUsed k = true) (hpos : 0 < v.usedInodes.toNat) :
    Returns (testfsPutInodeFreemap k) s := by
  have hcount := hs.usedInodes_eq
  rw [← hs.coherent.inodeBits] at hk
  rw [← hs.inodeUsed_eq,bits_of_lt hk] at hused
  rw [← hcount] at hpos
  obtain ⟨b,hb⟩ := Option.isSome_iff_exists.mp (bitmapUnmark_isSome hk hused)
  refine Returns.bind (Returns.get s) (Wlp.get_iff.mpr ?_)
  refine Returns.bind (Returns.lift hb s) fun _ t _ => ?_
  refine Returns.bind (Returns.modify _ t) fun _ t1 _ => ?_
  refine Returns.bind (testfsWriteInodeFreemap_returns _ t1) fun _ t2 _ => ?_
  refine Returns.bind (Returns.guard hpos t2) fun _ t3 _ => ?_
  exact Returns.bind (Returns.modify _ t3) fun _ t4 _ => testfsWriteSuperBlock_returns t4

theorem testfsFreeBlock_returns (hs : Stands s c v) {b : ℕ} (h1 : dataStart ≤ b)
    (h2 : b < dataStart + 2^20) (hused : v.blockUsed (b - dataStart) = true)
    (hpos : 0 < v.usedBlocks.toNat) : Returns (testfsFreeBlock b) s := by
  have hlt : b < 2^31 := by
    simp only [dataStart] at h2
    omega
  refine Returns.bind (writeBlocks_returns (Int.natCast_nonneg b) s)
    ((writeBlocks_spec hs _ (by exact_mod_cast h1)).mono ?_)
  rintro _ t ⟨ht,-⟩
  refine Returns.bind (Returns.get t) (Wlp.get_iff.mpr ?_)
  rw [ht.coherent.dataBlocksStart,toInt_sub_dataStart h1 hlt]
  refine Returns.bind (Returns.guard (Int.natCast_nonneg _) t) (Wlp.guard_iff.mpr fun _ => ?_)
  rw [Int.toNat_natCast]
  refine Returns.bind (testfsPutBlockFreemap_returns ht (by omega) hused) fun _ t1 _ => ?_
  rw [ht.usedBlocks_eq]
  refine Returns.bind (Returns.guard hpos t1) fun _ t2 _ => ?_
  exact Returns.bind (Returns.modify _ t2) fun _ t3 _ => testfsWriteSuperBlock_returns t3

end Maps

/-! ## Inodes -/

section Inodes

variable {s : Testfs} {c : Memory} {v : Volume} {i : ℕ}

theorem modifyDirty_returns (hs : Stands s c v) (hi : Held c i) (f : Dinode → Dinode) :
    Returns (modifyDirty i f) s :=
  Returns.bind (inodeOf_returns hs hi) fun _ t _ => Returns.modify _ t

theorem modifyDinode_returns (hs : Stands s c v) (hi : Held c i) (f : Dinode → Dinode) :
    Returns (modifyDinode i f) s :=
  Returns.bind (inodeOf_returns hs hi) fun _ t _ => Returns.modify _ t

theorem testfsSyncInode_returns (hs : Stands s c v) (hi : Held c i) :
    Returns (testfsSyncInode i) s := by
  have hlt := lt_of_held hs hi
  have hblock : i/inodesPerBlock < nrInodeBlocks := by
    simp only [inodesPerBlock,nrInodeBlocks,nrInodes] at *
    omega
  refine Returns.bind (inodeOf_returns hs hi) ((inodeOf_spec hs i).mono ?_)
  rintro inode t ⟨rfl,-,-⟩
  refine Returns.ite (fun _ => Returns.pure _ t) fun _ => ?_
  refine Returns.bind (testfsReadInodeBlock_returns hs hlt) fun r t1 _ => ?_
  refine Returns.bind ?_ fun _ t2 _ => Returns.modify _ t2
  refine Returns.bind (Returns.guard hblock t1) fun _ t2 _ => ?_
  refine Returns.bind (Returns.get t2) fun _ t3 _ => writeBlocks_returns ?_ t3
  positivity

/-- `testfs_create_inode` when there is an inode below the last one that is not used. -/
theorem testfsCreateInode_returns (hs : Stands s c v) {k : ℕ} (hk : k < nrInodes)
    (hfree : v.inodeUsed k = false) (type : InodeType) : Returns (testfsCreateInode type) s := by
  refine Returns.bind (testfsGetInodeFreemap_returns hs) ((testfsGetInodeFreemap_spec hs).mono ?_)
  intro r t ht
  cases r with
  | none => exact Returns.pure _ t
  | some i =>
    obtain ⟨-,-,hleast,ht⟩ := ht
    have hi : i < nrInodes := by
      by_contra hge
      have := hleast k (by omega)
      rw [hfree] at this
      cases this
    refine Returns.ite (fun hbig => ?_) fun _ => ?_
    · simp only [nrInodes,nrInodeBlocks,inodesPerBlock] at hi hbig
      omega
    · refine Returns.bind (testfsGetInode_returns ht hi) ((testfsGetInode_spec ht i).mono ?_)
      intro _ t1 h1
      exact Returns.bind (modifyDirty_returns h1 (held_hold ..) _) fun _ t2 _ => Returns.pure _ t2

theorem testfsAllocBlockForInode_returns (hs : Stands s c v) (hi : Held c i) :
    Returns (testfsAllocBlockForInode i) s := by
  refine Returns.bind (testfsAllocBlock_returns hs) ((testfsAllocBlock_spec hs).mono ?_)
  rintro r t hr
  have hheld : ∀ w, Stands t c w → Returns (modifyDirty i fun d =>
      { d with blockCount := d.blockCount + 1 }) t := fun w hw => modifyDirty_returns hw hi _
  refine Returns.ite (fun _ => ?_) fun _ => Returns.pure _ t
  refine Returns.bind ?_ fun _ t1 _ => Returns.pure _ t1
  rcases hr with ⟨-,ht,-⟩ | ⟨k,-,-,-,-,ht⟩
  · exact hheld _ ht
  · exact hheld _ ht

theorem testfsFreeBlockFromInode_returns (hs : Stands s c v) (hi : Held c i) {b : ℕ}
    (h1 : dataStart ≤ b) (h2 : b < dataStart + 2^20) (hused : v.blockUsed (b - dataStart) = true)
    (hpos : 0 < v.usedBlocks.toNat) : Returns (testfsFreeBlockFromInode i b) s := by
  have hlt : b < 2^31 := by
    simp only [dataStart] at h2
    omega
  refine Returns.ite (fun _ => Returns.pure _ s) fun _ => ?_
  refine Returns.bind (testfsFreeBlock_returns hs h1 h2 hused hpos)
    ((testfsFreeBlock_spec hs h1 hlt).mono ?_)
  rintro _ t ⟨-,-,-,ht⟩
  exact modifyDirty_returns ht hi _

end Inodes

/-! ## Blocks and entries -/

section Blocks

variable {s : Testfs} {c : Memory} {v : Volume} {i d : ℕ} {es : List Entry} {name : CString}

/-- The number of blocks that writing the logical block `n` of `i` takes. -/
def needed (v : Volume) (i n : ℕ) : ℕ :=
  if ref v i (slotOf n) ≠ 0 then 0
  else if nrDirectBlocks ≤ n ∧ ref v i .indirect = 0 then 2 else 1

/-- The logical block `n` of `i` exists or there is room for it. -/
structure Fits (v : Volume) (i n : ℕ) : Prop where
  lt : n < nrLogical
  room : v.usedBlocks.toNat + needed v i n ≤ v.maxBlocks.toNat

/-- A block that exists takes no room. -/
theorem Fits.of_ref {n : ℕ} (h : Accounts v (ref v)) (hn : n < nrLogical)
    (hr : ref v i (slotOf n) ≠ 0) : Fits v i n := by
  refine ⟨hn,?_⟩
  rw [needed,if_pos hr,Nat.add_zero]
  exact h.bound

/-- The logical block `n` of `i` has been filled, with the indirect block if it needs it. -/
structure Fills (v w : Volume) (i n : ℕ) : Prop where
  kept : ∀ l, ref v i l ≠ 0 → ref w i l = ref v i l
  slots : ∀ l, ref w i l ≠ 0 ↔
    ref v i l ≠ 0 ∨ l = slotOf n ∨ (l = .indirect ∧ nrDirectBlocks ≤ n)

theorem update_ne_zero_iff (f : Slot → ℕ) {l' l : Slot} {b : ℕ} (hb : b ≠ 0) :
    Function.update f l' b l ≠ 0 ↔ f l ≠ 0 ∨ l = l' := by
  by_cases hl : l = l'
  · rw [hl,Function.update_self]
    exact ⟨fun _ => .inr rfl,fun _ => hb⟩
  · rw [Function.update_of_ne hl]
    exact ⟨.inl,fun h => h.resolve_right hl⟩

/-- A slot with a block is not the one that is filled. -/
theorem slot_ne {f : Slot → ℕ} {l' l : Slot} (hl' : f l' = 0) (hl : f l ≠ 0) : l ≠ l' := by
  rintro rfl
  exact hl hl'

/-- `testfs_allocate_block` from the allocation for the entry on. -/
theorem allocateEntry_total (hm : i ∈ c.dirty) (hs : Stands s c v) (hi : Held c i)
    (h : Accounts v (ref v)) (hind : ref v i .indirect ≠ 0) {k : Fin nrIndirectBlocks}
    (hk : ref v i (.entry k) = 0) (indirectAllocated : Bool) (block : Region) :
    Total (allocateEntry i k.val (v.block (ref v i .indirect)) indirectAllocated block) s
      (fun r t => (r.1 < 0 ∧ Full v ∧ (indirectAllocated = true → Dirty t i)) ∨
        (0 ≤ r.1 ∧ ¬Full v ∧
          ∃ b, b ≠ 0 ∧ ref (volume t) i = Function.update (ref v i) (.entry k) b)) := by
  have hzero : loadInt (v.block (ref v i .indirect)) k.val = 0 := by
    have he := h.toInt_entry i k hind
    rw [hk] at he
    exact BitVec.eq_of_toInt_eq he
  obtain ⟨h1,h2,hused⟩ := h.balanced.used_of_hold hind
  refine Total.bind (Total.guard hzero (Total.bind (((testfsAllocBlockForInode_returns hs hi).total
    (testfsAllocBlockForInode_spec hs hm)).mono ?_)))
  rintro phy t (⟨hphy,ht,hfull⟩ | ⟨b,hb,rfl,hfree,hroom,hd,-,ht⟩)
  · refine Total.bind (((inodeOf_returns ht hi).total (inodeOf_spec ht i)).mono ?_)
    rintro inode t' ⟨rfl,-,hv⟩
    rw [if_neg (by omega),hv,h.toInt_indirect]
    cases indirectAllocated with
    | false => exact Total.pure (.inl ⟨hphy,h.full hfull,fun hf => by cases hf⟩)
    | true =>
      have hlt : ref v i .indirect < 2^31 := by
        simp only [dataStart,nrBlocks] at h2
        omega
      have hpos : 0 < v.usedBlocks.toNat := h.card_le {(i,.indirect)} (by simpa using hind)
      rw [if_pos rfl]
      refine Total.bind (((testfsFreeBlockFromInode_returns ht hi h1 h2 hused hpos).total
        (testfsFreeBlockFromInode_spec ht hm h1 hlt)).mono ?_)
      rintro _ t1 ⟨-,-,-,hd,h3⟩
      refine Total.bind (((modifyDinode_returns h3 hi _).total (modifyDinode_spec h3 hd _)).mono ?_)
      rintro _ t2 ⟨-,hd2⟩
      exact Total.pure (.inl ⟨hphy,h.full hfull,fun _ => hd2⟩)
  · refine Total.bind (((inodeOf_returns ht hi).total (inodeOf_spec ht i)).mono ?_)
    rintro inode t' ⟨rfl,-,hv⟩
    have hin : inode.data.iIndirect.toInt = ref v i .indirect := by
      rw [hv,Volume.setInode_inode_self]
      exact h.toInt_indirect i
    rw [if_pos (by omega),hin]
    refine Total.bind (((writeBlocks_returns (Int.natCast_nonneg _) t').total
      (writeBlocks_spec ht _ (by exact_mod_cast h1))).mono ?_)
    rintro _ t2 ⟨h3,-⟩
    rw [Int.toNat_natCast] at h3
    obtain ⟨-,-,hrow⟩ := grown_entry h hind hk hb hfree hroom rfl
    refine Total.pure (.inr ⟨by omega,?_,dataStart + b,by simp,?_⟩)
    · rw [Full]
      omega
    · rw [h3.volume_eq]
      exact hrow

/-- `testfs_allocate_block` fails when there is no room for the block, and fills it otherwise. -/
theorem testfsAllocateBlock_total (hm : i ∈ c.dirty) (h : Valid s c v) (hi : Held c i) (n : ℕ) :
    Total (testfsAllocateBlock i n) s (fun r t =>
      (r.1 < 0 ∧ ¬Fits v i n ∧ (n < nrLogical → needed v i n = 2 → ¬Full v → Dirty t i)) ∨
      (0 ≤ r.1 ∧ Fits v i n ∧ Fills v (volume t) i n)) := by
  have ha := h.accounts
  have hbound := ha.bound
  refine Total.bind (Total.guard (Int.natCast_nonneg n) (Total.bind
    (((testfsReadBlock_returns h hi (Int.natCast_nonneg n)).total
      (testfsReadBlock_spec h.stands ha i n)).mono ?_)))
  rw [Int.toNat_natCast]
  rintro ⟨phy,block⟩ t ⟨rfl,-,⟨hbig,hneg⟩ | ⟨hlog,hphy,-⟩⟩
  · -- beyond the last logical block
    simp only at hneg ⊢
    rw [if_pos (by omega)]
    exact Total.pure (.inl ⟨hneg,fun hf => absurd hf.lt (Nat.not_lt.mpr hbig),
      fun hlt => absurd hlt (Nat.not_lt.mpr hbig)⟩)
  simp only at hphy ⊢
  by_cases hzero : ref v i (slotOf n) = 0
  swap
  · -- the block exists
    have hneed : needed v i n = 0 := if_pos hzero
    rw [if_pos (by omega)]
    refine Total.pure (.inr ⟨by omega,⟨hlog,by omega⟩,?_⟩)
    rw [h.stands.volume_eq]
    refine ⟨fun _ _ => rfl,fun l => ⟨.inl,fun hl => hl.elim id fun hl => hl.elim (fun he => he ▸ hzero) ?_⟩⟩
    rintro ⟨rfl,hfar⟩ hind
    rw [slotOf_entry (Nat.not_lt.mpr hfar)] at hzero
    exact hzero (by simp only [ref,if_pos ((indirect_eq_zero_iff i).mp hind)])
  rw [if_neg (by omega)]
  refine Total.bind (((inodeOf_returns h.stands hi).total (inodeOf_spec h.stands i)).mono ?_)
  rintro inode t' ⟨rfl,-,hv⟩
  rw [hv]
  by_cases h10 : n < nrDirectBlocks
  · have hneed : needed v i n = 1 := by
      rw [needed,if_neg (not_not.mpr hzero),if_neg fun hc => absurd h10 (Nat.not_lt.mpr hc.1)]
    have hfits : ¬Full v ↔ Fits v i n := by
      rw [Full,Nat.not_le]
      exact ⟨fun hlt => ⟨hlog,by omega⟩,fun hf => by have := hf.room; omega⟩
    rw [slotOf_direct h10] at hzero
    rw [if_pos (by exact_mod_cast h10)]
    refine Total.bind (Total.guard ((ref_eq_zero_iff i _).mp hzero) (Total.bind
      (((testfsAllocBlockForInode_returns h.stands hi).total
        (testfsAllocBlockForInode_spec h.stands hm)).mono ?_)))
    rintro phy' t1 (⟨hphy',-,hfull⟩ | ⟨b,hb,rfl,hfree,hroom,hd,-,ht⟩)
    · rw [if_neg (by omega)]
      exact Total.pure (.inl ⟨hphy',fun hf => hfits.mpr hf (ha.full hfull),fun _ h2 => by omega⟩)
    · rw [if_pos (by omega)]
      refine Total.bind (((modifyDinode_returns ht hi _).total (modifyDinode_spec ht hd _)).mono ?_)
      rintro _ t2 ⟨h2,-⟩
      rw [Volume.setInode_inode_self,Volume.setInode_setInode] at h2
      obtain ⟨-,-,hrow⟩ := grown_direct ha hzero hb hfree hroom h2.volume_eq
      refine Total.pure (.inr ⟨Int.natCast_nonneg _,hfits.mp (by rw [Full]; omega),
        fun l hl => ?_,fun l => ?_⟩)
      · rw [hrow,Function.update_of_ne (slot_ne hzero hl)]
      rw [hrow,slotOf_direct h10,update_ne_zero_iff _ (by simp)]
      exact or_congr_right ⟨.inl,fun hl => hl.resolve_right fun hc => absurd h10 (by omega)⟩
  · have hlt : ¬((n : ℤ) < (nrDirectBlocks : ℤ)) := by exact_mod_cast h10
    have hsub : ((n : ℤ) - (nrDirectBlocks : ℤ)).toNat = n - nrDirectBlocks := by omega
    have hlog' : ¬((nrIndirectBlocks : ℤ) ≤ (n : ℤ) - (nrDirectBlocks : ℤ)) := by
      simp only [nrIndirectBlocks,nrDirectBlocks,nrLogical] at *
      omega
    have hkk : (Fin.ofNat nrIndirectBlocks (n - nrDirectBlocks)).val = n - nrDirectBlocks := by
      rw [Fin.val_ofNat]
      simp only [nrIndirectBlocks,nrDirectBlocks,nrLogical] at *
      omega
    rw [if_neg hlt,if_neg hlog',hsub,← hkk]
    have hslot := slotOf_entry h10
    by_cases hind : ref v i .indirect = 0
    · -- there is no indirect block yet
      have hneed : needed v i n = 2 := by
        rw [needed,if_neg (not_not.mpr hzero),if_pos ⟨Nat.not_lt.mp h10,hind⟩]
      rw [if_pos ((indirect_eq_zero_iff i).mp hind)]
      refine Total.bind (((testfsAllocBlockForInode_returns h.stands hi).total
        (testfsAllocBlockForInode_spec h.stands hm)).mono ?_)
      rintro phy' t1 (⟨hphy',-,hfull⟩ | ⟨b,hb,rfl,hfree,hroom,hd,-,ht⟩)
      · have hf := ha.full hfull
        rw [if_pos hphy']
        refine Total.pure (.inl ⟨hphy',fun hfit => ?_,fun _ _ hc => absurd hf hc⟩)
        have := hfit.room
        rw [Full] at hf
        omega
      · rw [if_neg (by omega)]
        refine Total.bind (((modifyDinode_returns ht hi _).total
          (modifyDinode_spec ht hd _)).mono ?_)
        rintro _ t2 ⟨h2,-⟩
        rw [Volume.setInode_inode_self,Volume.setInode_setInode] at h2
        obtain ⟨h3,-,hrow⟩ := grown_indirect ha hind hb hfree hroom rfl
        have hself := congrFun hrow .indirect
        rw [Function.update_self] at hself
        rw [hslot] at hzero
        have hentry := congrFun hrow (.entry (Fin.ofNat nrIndirectBlocks (n - nrDirectBlocks)))
        rw [Function.update_of_ne (by simp),hzero] at hentry
        have hused : (v.takeBlock b).usedBlocks.toNat = v.usedBlocks.toNat + 1 := by
          have hmax := ha.max
          simp only [nrBlocks] at hmax
          exact toNat_add_one _ (by omega)
        have hblock := ha.free b hb hfree
        have hall := allocateEntry_total hm h2 hi h3 (by rw [hself]; simp) hentry true block
        rw [hself,Volume.setInode_block,Volume.takeBlock_block,hblock] at hall
        refine hall.mono ?_
        rintro r t3 (⟨hr,hfull,hdirty⟩ | ⟨hr,hfull,x,hx,hrow'⟩)
        · replace hfull : v.maxBlocks.toNat ≤ (v.takeBlock b).usedBlocks.toNat := hfull
          refine .inl ⟨hr,fun hfit => ?_,fun _ _ _ => hdirty rfl⟩
          have := hfit.room
          omega
        · replace hfull : ¬v.maxBlocks.toNat ≤ (v.takeBlock b).usedBlocks.toNat := hfull
          refine .inr ⟨hr,⟨hlog,by omega⟩,fun l hl => ?_,fun l => ?_⟩
          · rw [hrow',Function.update_of_ne (slot_ne hzero hl),hrow,
              Function.update_of_ne (slot_ne hind hl)]
          rw [hrow',hrow,hslot,update_ne_zero_iff _ hx,update_ne_zero_iff _ (by simp),or_assoc]
          exact or_congr_right (or_comm.trans (or_congr_right
            ⟨fun hl => ⟨hl,Nat.not_lt.mp h10⟩,And.left⟩))
    · have hneed : needed v i n = 1 := by
        rw [needed,if_neg (not_not.mpr hzero),if_neg fun hc => hind hc.2]
      have hfits : ¬Full v ↔ Fits v i n := by
        rw [Full,Nat.not_le]
        exact ⟨fun hlt => ⟨hlog,by omega⟩,fun hf => by have := hf.room; omega⟩
      rw [if_neg fun h0 => hind ((indirect_eq_zero_iff i).mpr h0),ha.toInt_indirect]
      refine Total.bind (((readBlocks_returns (h.backed i .indirect hind)).total
        (readBlocks_spec h.stands (by exact_mod_cast (ha.range hind).1))).mono ?_)
      rintro r t1 ⟨rfl,rfl⟩
      rw [hslot] at hzero
      rw [Int.toNat_natCast]
      refine (allocateEntry_total hm h.stands hi ha hind hzero false block).mono ?_
      rintro r t3 (⟨hr,hfull,-⟩ | ⟨hr,hfull,x,hx,hrow⟩)
      · exact .inl ⟨hr,fun hf => hfits.mpr hf hfull,fun _ h2 => by omega⟩
      · refine .inr ⟨hr,hfits.mp hfull,fun l hl => ?_,fun l => ?_⟩
        · rw [hrow,Function.update_of_ne (slot_ne hzero hl)]
        rw [hrow,hslot,update_ne_zero_iff _ hx]
        refine ⟨fun hl => hl.imp_right .inl,fun hl => hl.elim .inl fun hl => hl.elim .inr ?_⟩
        rintro ⟨rfl,-⟩
        exact .inl hind

/-- `testfs_write_data` for a block number that is not negative. -/
theorem testfsWriteData_total (hm : i ∈ c.dirty) (h : Valid s c v) (hi : Held c i)
    (buf : List Byte) {o n : ℕ} (hn : toInt32 (o/blockSize : ℕ) = n)
    (hfit : o % blockSize + buf.length ≤ blockSize) :
    Total (testfsWriteData i buf o) s (fun r t =>
      (r < 0 ∧ ¬Fits v i n ∧ (n < nrLogical → needed v i n = 2 → ¬Full v → Dirty t i)) ∨
      (r = buf.length ∧ Fits v i n ∧ Fills v (volume t) i n)) := by
  obtain ⟨hdiv,hmod⟩ := natCast_tdiv_blockSize o
  have hsize : toSize ((o % blockSize : ℕ) + (buf.length : ℤ)) = o % blockSize + buf.length := by
    rw [← Nat.cast_add,toSize_natCast (by simp only [blockSize] at hfit ⊢; omega)]
  simp only [testfsWriteData]
  rw [hdiv,hmod,hsize,hn,if_neg (Nat.not_lt.mpr hfit)]
  refine Total.bind (((testfsAllocateBlock_total hm h hi n).and_wlp
    (testfsAllocateBlock_spec hm h.stands h.accounts n)).mono ?_)
  rintro ⟨r,block⟩ t ⟨⟨hr,hfits,hd⟩ | ⟨hr,hfits,hfills⟩,-,hall⟩
  · simp only at hr ⊢
    rw [if_pos hr]
    exact Total.pure (.inl ⟨hr,hfits,hd⟩)
  · obtain ⟨w,hw,ha,-,hlog,hphy,h0,-⟩ := hall.resolve_left fun hc => by
      have := hc.1
      omega
    rw [Int.toNat_natCast] at hphy h0
    simp only at hphy ⊢
    subst hphy
    rw [if_neg (by omega)]
    refine Total.bind (Total.guard ⟨Int.natCast_nonneg _,by rwa [Int.toNat_natCast]⟩ ?_)
    refine Total.bind (((writeBlocks_returns (Int.natCast_nonneg _) t).total
      (writeBlocks_spec hw _ (by exact_mod_cast (ha.range h0).1))).mono ?_)
    rintro _ t1 ⟨h1,-⟩
    refine Total.bind (((modifyDirty_returns h1 hi _).total (modifyDirty_spec h1 hm _)).mono ?_)
    rintro _ t2 ⟨h2,-,-⟩
    obtain ⟨hf1,hf2,hf3,-⟩ := resized_fields (w.inode i) buf.length o
    obtain ⟨-,-,-,href⟩ := write_block ha hlog h0 (resized (w.inode i) buf.length o)
      h2.volume_eq hf1 hf2 hf3
    refine Total.pure (.inr ⟨rfl,hfits,?_⟩)
    rw [← hw.volume_eq] at href
    exact ⟨fun l hl => by rw [href,hfills.kept l hl],fun l => by rw [href,hfills.slots l]⟩

theorem testfsWriteData_returns (hm : i ∈ c.dirty) (h : Valid s c v) (hi : Held c i)
    (buf : List Byte) {o n : ℕ} (hn : toInt32 (o/blockSize : ℕ) = n) (hbuf : buf.length < 2^63) :
    Returns (testfsWriteData i buf o) s := by
  by_cases hfit : o % blockSize + buf.length ≤ blockSize
  · exact (testfsWriteData_total hm h hi buf hn hfit).returns
  · obtain ⟨-,hmod⟩ := natCast_tdiv_blockSize o
    have hsize : toSize ((o % blockSize : ℕ) + (buf.length : ℤ)) = o % blockSize + buf.length := by
      rw [← Nat.cast_add,toSize_natCast (by simp only [blockSize]; omega)]
    simp only [testfsWriteData]
    rw [hmod,hsize,if_pos (Nat.not_le.mp hfit)]
    exact Returns.pure _ s

theorem testfsAddDirent_returns (hm : d ∈ c.dirty) (h : Valid s c v) (hi : Held c d)
    (hd : IsDir v d es) (hname : name.1.length < 2^30)
    (nr : ℕ) : Returns (testfsAddDirent d name nr) s := by
  have hstop := hd.laid.stop_eq
  rw [Nat.zero_add] at hstop
  have hlen : toInt32 (name.1.length + 1) = name.1.length + 1 := by
    exact_mod_cast toInt32_natCast (k := name.1.length + 1) (by omega)
  -- the entry is written wherever the loop has stopped
  have hwrite : ∀ o : ℕ, o ≤ sizes es →
      Returns (testfsWriteDirent d name (toInt32 (name.1.length + 1)) nr (toInt32 o)) s := by
    intro o ho
    have hle : o ≤ nrLogical*blockSize := ho.trans (hstop ▸ hd.size_le)
    rw [hlen,toInt32_natCast (by simp only [nrLogical,blockSize] at hle; omega)]
    refine Returns.ite (fun _ => Returns.pure _ s) fun _ => ?_
    refine Returns.bind (Returns.guard rfl s) (Wlp.guard_iff.mpr fun _ => ?_)
    refine testfsWriteData_returns hm h hi _ (offset_arith hle).2.2 ?_
    rw [direntBytes,List.length_append,List.length_append,length_stored,length_stored,
      CString.length_bytes]
    omega
  refine Returns.bind (assertDir_returns h.stands hi hd.iType) ((assertDir_spec h.stands d).mono ?_)
  rintro _ t ⟨rfl,-⟩
  refine Returns.bind (scanDir_total h hi hd (stopsAdd_toDirent name _)).returns
    ((scanDir_spec h.stands h.accounts hd (stopsAdd_toDirent name _)).mono ?_)
  rintro r t1 ⟨rfl,rfl⟩
  cases hf : firstEntry (stopsAt name (toInt32 (name.1.length + 1))) es 0 with
  | mk f k =>
  cases f with
  | some x =>
    obtain ⟨pre,post,rfl,-,-,hk⟩ := firstEntry_some hf
    refine Returns.ite (fun _ => Returns.pure _ t1) fun _ => hwrite k ?_
    rw [hk,sizes_append]
    omega
  | none =>
    obtain ⟨-,hk⟩ := firstEntry_none hf
    rw [Nat.zero_add] at hk
    refine Returns.bind (inodeOf_returns h.stands hi) ((inodeOf_spec h.stands d).mono ?_)
    rintro inode t2 ⟨rfl,-,hv⟩
    have hguard : (k : ℤ) = inode.data.iSize.toInt := by
      rw [hv,toInt_iSize hd.size_le,hstop,hk]
    exact Returns.bind (Returns.guard hguard t2)
      (Wlp.guard_iff.mpr fun _ => hwrite k hk.le)

end Blocks

end FsWriting
end OsLabs

import Mathlib.Data.BitVec
import Mathlib.Tactic
import OsLabs.Bytes
import OsLabs.Wlp
import OsLabs.FsModel
import OsLabs.DirModel
import OsLabs.FsVolume
import OsLabs.FsAccounts
import OsLabs.FsRemoval
import OsLabs.Dirents
import OsLabs.DirMap
import OsLabs.DirOps
import OsLabs.FsCreation
import OsLabs.FsCommands
import OsLabs.FsReading
import OsLabs.FsWriting
import OsLabs.FsFreeing
import OsLabs.WriteEffects

/-!
# Directories that are left dirty

When the eleventh block of a directory is to be allocated and the last block goes to its indirect
block, the creation fails and gives the indirect block back. Allocating and freeing set the dirty
flag of the directory, and nothing on this path writes the inode to the device.
-/

namespace OsLabs
namespace DirtyParents

open Bytes FsModel DirModel FsVolume FsAccounts FsRemoval Dirents DirMap DirOps FsCreation
open FsCommands FsReading FsWriting FsFreeing WriteEffects

section Blocks

variable {s : Testfs} {c : Memory} {v : Volume} {i : ℕ}

/-- Without a block for the entry the indirect block is given back. -/
theorem testfsAllocateBlock_undone (h : Valid s c v) (hi : Held c i) {n : ℕ} (hu : Undone v i n)
    (hn : n < nrLogical) : Total (testfsAllocateBlock i n) s (fun r t => r.1 < 0 ∧ Dirty t i) := by
  have hlast := hu.last
  have hzero : ref v i (slotOf n) = 0 := by
    rw [slotOf_entry (Nat.not_lt.mpr hu.far)]
    simp only [ref,if_pos ((indirect_eq_zero_iff i).mp hu.indirect)]
  have hneed : needed v i n = 2 := by
    rw [needed,if_neg (not_not.mpr hzero),if_pos ⟨hu.far,hu.indirect⟩]
  refine (testfsAllocateBlock_total (Set.mem_insert i _) (h.touch i) hi n).mono ?_
  rintro r t (⟨hr,-,hd⟩ | ⟨-,hfits,-⟩)
  · exact ⟨hr,hd hn hneed (by rw [Full]; omega)⟩
  · have hroom := hfits.room
    omega

theorem writeEntry_undone (h : Valid s c v) (hi : Held c i) {e : Entry} {o : ℕ}
    (ho : o < nrLogical*blockSize) (hu : Undone v i (o/blockSize))
    (hfit : o % blockSize + e.size ≤ blockSize) :
    Total (testfsWriteData i e.bytes o) s (fun r t => r < 0 ∧ Dirty t i) := by
  obtain ⟨hdiv,hmod,hint⟩ := offset_arith ho.le
  have hsize : toSize ((o % blockSize : ℕ) + (e.size : ℤ)) = o % blockSize + e.size := by
    rw [← Nat.cast_add,toSize_natCast (by simp only [blockSize] at hfit ⊢; omega)]
  simp only [testfsWriteData,Entry.length_bytes]
  rw [hdiv,hmod,hint,hsize,if_neg (Nat.not_lt.mpr hfit)]
  have hn : o/blockSize < nrLogical := Nat.div_lt_of_lt_mul (by rwa [Nat.mul_comm])
  refine Total.bind ((testfsAllocateBlock_undone h hi hu hn).mono ?_)
  rintro r t ⟨hr,hd⟩
  rw [if_pos hr]
  exact Total.pure ⟨hr,hd⟩

end Blocks

/-! ## Other inodes -/

section Others

variable {i j : ℕ}

theorem fixes_inodeOf {τ : Type} {f : Testfs → τ} (i : ℕ) : Fixes f (inodeOf i) :=
  Fixes.of_keeps (keeps_inodeOf i)

theorem fixes_writeBlocks (r : Region) (b : ℤ) : Fixes Testfs.inodes (writeBlocks r b) :=
  Fixes.bind (Fixes.of_keeps (Keeps.guard _)) fun _ => Fixes.modify fun _ => rfl

theorem fixes_testfsWriteSuperBlock : Fixes Testfs.inodes testfsWriteSuperBlock :=
  Fixes.bind (Fixes.of_keeps Keeps.get) fun _ => fixes_writeBlocks _ _

theorem fixes_testfsFreeBlock (b : ℤ) : Fixes Testfs.inodes (testfsFreeBlock b) := by
  refine Fixes.bind (fixes_writeBlocks _ _) fun _ => Fixes.bind (Fixes.of_keeps Keeps.get) fun _ => ?_
  refine Fixes.bind (Fixes.of_keeps (Keeps.guard _)) fun _ => Fixes.bind ?_ fun _ => ?_
  · refine Fixes.bind (Fixes.of_keeps Keeps.get) fun _ => ?_
    refine Fixes.bind (Fixes.of_keeps (Keeps.lift _)) fun _ => ?_
    refine Fixes.bind (Fixes.modify fun _ => rfl) fun _ => ?_
    exact Fixes.bind (Fixes.of_keeps Keeps.get) fun _ => fixes_writeBlocks _ _
  · refine Fixes.bind (Fixes.of_keeps (Keeps.guard _)) fun _ => ?_
    exact Fixes.bind (Fixes.modify fun _ => rfl) fun _ => fixes_testfsWriteSuperBlock

theorem fixes_testfsPutInodeFreemap (k : ℕ) : Fixes Testfs.inodes (testfsPutInodeFreemap k) := by
  refine Fixes.bind (Fixes.of_keeps Keeps.get) fun _ => ?_
  refine Fixes.bind (Fixes.of_keeps (Keeps.lift _)) fun _ => ?_
  refine Fixes.bind (Fixes.modify fun _ => rfl) fun _ => Fixes.bind ?_ fun _ => ?_
  · exact Fixes.bind (Fixes.of_keeps Keeps.get) fun _ => fixes_writeBlocks _ _
  · refine Fixes.bind (Fixes.of_keeps (Keeps.guard _)) fun _ => ?_
    exact Fixes.bind (Fixes.modify fun _ => rfl) fun _ => fixes_testfsWriteSuperBlock

/-- The in-memory inode `j`. -/
def inodeAt (j : ℕ) (s : Testfs) : Option Inode := s.inodes j

theorem fixes_inodeAt {α : Type} {m : FsM α} (h : Fixes Testfs.inodes m) (j : ℕ) :
    Fixes (inodeAt j) m :=
  fun s => (h s).mono fun _ _ ht => congrFun ht j

theorem fixes_setInode (hij : j ≠ i) (inode : Inode) : Fixes (inodeAt j) (setInode i inode) :=
  Fixes.modify fun _ => Function.update_of_ne hij ..

theorem fixes_modifyDirty (hij : j ≠ i) (f : Dinode → Dinode) :
    Fixes (inodeAt j) (modifyDirty i f) :=
  Fixes.bind (fixes_inodeOf i) fun _ => fixes_setInode hij _

theorem fixes_modifyDinode (hij : j ≠ i) (f : Dinode → Dinode) :
    Fixes (inodeAt j) (modifyDinode i f) :=
  Fixes.bind (fixes_inodeOf i) fun _ => fixes_setInode hij _

theorem fixes_testfsFreeBlockFromInode (hij : j ≠ i) (b : ℤ) :
    Fixes (inodeAt j) (testfsFreeBlockFromInode i b) :=
  Fixes.ite (Fixes.pure _) (Fixes.bind (fixes_inodeAt (fixes_testfsFreeBlock b) j) fun _ =>
    fixes_modifyDirty hij _)

theorem fixes_freeDirect (hij : j ≠ i) (e : ℤ) (n k : ℕ) : Fixes (inodeAt j) (freeDirect i e n k) := by
  induction n generalizing k with
  | zero => exact Fixes.pure _
  | succ n ih =>
    refine Fixes.ite (Fixes.bind (fixes_inodeOf i) fun inode => ?_) (Fixes.pure _)
    refine Fixes.ite (ih (k+1)) (Fixes.bind (fixes_testfsFreeBlockFromInode hij _) fun _ => ?_)
    exact Fixes.bind (fixes_modifyDinode hij _) fun _ => ih (k+1)

theorem fixes_freeEntries (hij : j ≠ i) (e : ℤ) (n k : ℕ) (block : Region) :
    Fixes (inodeAt j) (freeEntries i e n k block) := by
  induction n generalizing k block with
  | zero => exact Fixes.pure _
  | succ n ih =>
    refine Fixes.ite (Fixes.ite (ih (k+1) block) ?_) (Fixes.pure _)
    exact Fixes.bind (fixes_testfsFreeBlockFromInode hij _) fun _ => ih (k+1) _

theorem fixes_freeIndirect (hij : j ≠ i) (e : ℤ) : Fixes (inodeAt j) (freeIndirect i e) := by
  refine Fixes.bind (fixes_inodeOf i) fun inode => Fixes.ite ?_ (Fixes.pure _)
  refine Fixes.bind (Fixes.of_keeps (Keeps.guard _)) fun _ => ?_
  refine Fixes.bind (Fixes.of_keeps (keeps_readBlocks _)) fun _ => ?_
  refine Fixes.bind (fixes_freeEntries hij _ _ _ _) fun _ => ?_
  exact Fixes.bind (fixes_testfsFreeBlockFromInode hij _) fun _ => fixes_modifyDinode hij _

theorem fixes_testfsSyncInode (hij : j ≠ i) : Fixes (inodeAt j) (testfsSyncInode i) := by
  refine Fixes.bind (fixes_inodeOf i) fun inode => Fixes.ite (Fixes.pure _) ?_
  refine Fixes.bind (Fixes.of_keeps ?_) fun _ => Fixes.bind ?_ fun _ => fixes_setInode hij _
  · exact Keeps.bind (Keeps.guard _) fun _ => Keeps.bind Keeps.get fun _ => keeps_readBlocks _
  · refine Fixes.bind (Fixes.of_keeps (Keeps.guard _)) fun _ => ?_
    exact Fixes.bind (Fixes.of_keeps Keeps.get) fun _ => fixes_inodeAt (fixes_writeBlocks _ _) j

theorem fixes_testfsPutInode (hij : j ≠ i) : Fixes (inodeAt j) (testfsPutInode i) := by
  refine Fixes.bind (fixes_inodeOf i) fun inode => ?_
  refine Fixes.bind (Fixes.of_keeps (Keeps.guard _)) fun _ => Fixes.ite ?_ (fixes_setInode hij _)
  exact Fixes.modify fun _ => Function.update_of_ne hij ..

theorem fixes_testfsFreeBlocks (hij : j ≠ i) : Fixes (inodeAt j) (testfsFreeBlocks i) := by
  refine Fixes.bind (fixes_inodeOf i) fun inode => Fixes.bind (fixes_freeDirect hij _ _ _) fun _ => ?_
  refine Fixes.bind (fixes_freeIndirect hij _) fun _ => Fixes.ite (Fixes.pure _) ?_
  exact Fixes.bind (fixes_modifyDirty hij _) fun _ => Fixes.pure _

/-- Removing an inode does not touch the other ones in memory. -/
theorem fixes_testfsRemoveInode (hij : j ≠ i) : Fixes (inodeAt j) (testfsRemoveInode i) := by
  refine Fixes.bind (fixes_testfsFreeBlocks hij) fun _ => Fixes.bind (fixes_inodeOf i) fun inode => ?_
  refine Fixes.bind (Fixes.of_keeps (Keeps.guard _)) fun _ => ?_
  refine Fixes.bind (fixes_modifyDirty hij _) fun _ => ?_
  refine Fixes.bind (fixes_inodeAt (fixes_testfsPutInodeFreemap i) j) fun _ => ?_
  exact Fixes.bind (fixes_testfsSyncInode hij) fun _ => fixes_testfsPutInode hij

end Others

/-! ## Entries -/

section Entries

variable {s : Testfs} {c : Memory} {v : Volume} {d : ℕ} {es : List Entry} {name : CString}

/-- Without an indirect block a directory has at most ten blocks. -/
theorem sizes_le_of_direct (hd : IsDir v d es) (hind : ref v d .indirect = 0) :
    sizes es/blockSize ≤ nrDirectBlocks := by
  have hstop := hd.laid.stop_eq
  rw [Nat.zero_add] at hstop
  by_contra hfar
  have href := ref_of_laid_lt (n := nrDirectBlocks) hd.laid (Nat.zero_le _) (by
    rw [hstop]
    simp only [nrDirectBlocks,blockSize] at *
    omega)
  rw [slotOf_entry (lt_irrefl _)] at href
  simp only [ref] at href
  exact absurd (if_pos ((indirect_eq_zero_iff d).mp hind)) href

/-- Adding the entry fails in the allocation of the eleventh block. -/
theorem testfsAddDirent_undone (h : Valid s c v) (hi : Held c d) (hd : IsDir v d es)
    (hu : AddUndone v d es name) (nr : ℕ) :
    Total (testfsAddDirent d name nr) s (fun r t => r < 0 ∧ Dirty t d) := by
  have hten := sizes_le_of_direct hd hu.undone.indirect
  have hfit := hu.fits
  have hlen : toInt32 (name.1.length + 1) = name.1.length + 1 := by
    have hlt : name.1.length + 1 < 2^31 := by
      simp only [blockSize] at hfit
      omega
    exact_mod_cast toInt32_natCast hlt
  have hlt : sizes es < nrLogical*blockSize := by
    simp only [blockSize,nrDirectBlocks,nrLogical] at hten ⊢
    omega
  have hstop := hd.laid.stop_eq
  rw [Nat.zero_add] at hstop
  refine Total.bind (((assertDir_returns h.stands hi hd.iType).total
    (assertDir_spec h.stands d)).mono ?_)
  rintro _ t ⟨rfl,-⟩
  refine Total.bind ((scanDir_total h hi hd (stopsAdd_toDirent name _)).mono ?_)
  rintro r t1 ⟨rfl,rfl⟩
  rw [hlen]
  cases hf : firstEntry (stopsAt name (name.1.length + 1)) es 0 with
  | mk f k =>
  cases f with
  | some x =>
    obtain ⟨pre,post,rfl,hx,-,-⟩ := firstEntry_some hf
    exact absurd (hu.noSlot x (by simp)) (by simp [hx])
  | none =>
    obtain ⟨-,hk⟩ := firstEntry_none hf
    rw [Nat.zero_add] at hk
    subst hk
    refine Total.bind (((inodeOf_returns h.stands hi).total (inodeOf_spec h.stands d)).mono ?_)
    rintro inode t2 ⟨rfl,-,hv⟩
    have hguard : (sizes es : ℤ) = inode.data.iSize.toInt := by rw [hv,toInt_iSize hd.size_le,hstop]
    refine Total.bind (Total.guard hguard ?_)
    rw [toInt32_natCast (by simp only [nrLogical,blockSize] at hlt; omega)]
    have hsize : toSize (8 + ((name.1.length : ℤ) + 1)) = name.1.length + 9 := by
      rw [show (8 + ((name.1.length : ℤ) + 1)) = (name.1.length + 9 : ℕ) by push_cast; ring]
      exact toSize_natCast (by simp only [blockSize] at hfit; omega)
    have hmem : ¬2^63 ≤ toSize (8 + ((name.1.length : ℤ) + 1)) := by
      rw [hsize]
      simp only [blockSize] at hfit
      omega
    rw [testfsWriteDirent,if_neg hmem]
    have hentry : (⟨BitVec.ofNat 32 nr,name⟩ : Entry).size = name.1.length + 9 := by
      show 8 + (name.1.length + 1) = _
      omega
    refine Total.bind (Total.guard rfl ?_)
    exact writeEntry_undone (e := ⟨BitVec.ofNat 32 nr,name⟩) h hi hlt hu.undone (hentry ▸ hfit)

theorem lookup_of_noSlot (h : ∀ x ∈ es, stopsAt name (name.1.length + 1) x = false) :
    lookup name es = none := by
  refine lookup_eq_none_iff.mpr fun x hx hlive hname => ?_
  have hstop := h x hx
  rw [stopsAt,if_pos hlive,decide_eq_false_iff_not] at hstop
  exact hstop hname

/-- The new inode is removed again, and the directory stays dirty. -/
theorem testfsCreateFileOrDir_undone (h : Valid s c v) (hi : Held c d) (hd : IsDir v d es)
    (hused : v.inodeUsed d = true) (hfresh : ∀ i, v.inodeUsed i = false → v.inode i = Dinode.zero)
    {type : InodeType} (hu : CreateUndone v d es type name) :
    Wlp (testfsCreateFileOrDir d type name) s (fun r t => r < 0 ∧ Dirty t d) := by
  rw [testfsCreateFileOrDir,testfsCreateFileOrDirWith,Wlp.bind_iff]
  refine (testfsDirNameToInodeNr_spec h.stands h.accounts hd name).mono ?_
  rintro r t ⟨rfl,hr⟩
  rw [lookup_of_noSlot hu.noSlot] at hr
  obtain rfl : r = Errno.noent.ret := hr
  rw [if_neg (by decide),Wlp.bind_iff]
  refine (testfsCreateInode_valid h type).mono ?_
  intro r1 t1 h1
  cases r1 with
  | none =>
    obtain ⟨k,hk,hfree⟩ := hu.free
    rw [h1.2 k hk] at hfree
    cases hfree
  | some i =>
    obtain ⟨v1,hv1,ho⟩ := h1
    have hz := hfresh i ho.unused
    have hdi : d ≠ i := by
      rintro rfl
      rw [ho.unused] at hused
      cases hused
    have hmi : i ∈ ((c.touch i).hold i).dirty := Set.mem_insert i _
    have hnil : type = .dir → IsDir v1 i [] := fun hdir => isDir_nil (by rw [ho.self,hz,hdir])
    have href0 : ref v1 i (slotOf 0) = 0 := by rw [ho.ref,ref_zero hz]
    have hv1used : v1.usedBlocks = v.usedBlocks := (used_congr h hv1 ho.ref).2
    have hlast := hu.last
    simp only [Wlp.bind_iff]
    refine ((createContents_spec hmi hv1 type hnil d).and
      (createContents_count hmi hv1 type hnil href0 d)).mono ?_
    rintro r2 t2 ⟨⟨-,hdir,hfull,-⟩ | ⟨rfl,w,hw,hf,-⟩,hcount⟩
    · -- there are two blocks left
      rw [Full,hv1used,ho.maxBlocks] at hfull
      omega
    have hdw : IsDir w d es := by
      refine isDir_congr hd ?_ ?_
      · rw [hf.inode d hdi,ho.inode d hdi]
      · rw [hf.logical d hdi,ho.logical]
    have hblocks : w.usedBlocks.toNat = v.usedBlocks.toNat + InodeType.blocks type := by
      rw [← hw.stands.usedBlocks_eq,hcount le_rfl,hv1used]
    have hundone : Undone w d (sizes es/blockSize) := by
      refine ⟨hu.far,?_,?_⟩
      · rw [hf.ref d hdi,ho.ref]
        exact hu.indirect
      · rw [hblocks,hf.maxBlocks,ho.maxBlocks]
        exact hu.last
    have hheld : Held ((c.touch i).hold i) d := Held.hold (c := c.touch i) hi i
    rw [if_neg (by omega),Wlp.bind_iff]
    refine (testfsAddDirent_undone hw hheld hdw ⟨hundone,hu.noSlot,hu.fits⟩ i).wlp.mono ?_
    rintro r3 t3 ⟨hr3,hdirty⟩
    rw [if_pos hr3,Wlp.bind_iff]
    refine (fixes_testfsRemoveInode hdi t3).mono fun _ t4 h4 => Wlp.pure_iff.mpr ⟨hr3,?_⟩
    obtain ⟨inode,hin,hflag⟩ := hdirty
    exact ⟨inode,Eq.trans h4 hin,hflag⟩

theorem testfsRemoveInode_returns {i : ℕ} {x : BitVec 32} (hm : i ∈ c.dirty) (h : Valid s c v)
    (hi : Held c i) (hz : v.inode i = { Dinode.zero with iType := x })
    (hused : v.inodeUsed i = true) (hpos : 0 < v.usedInodes.toNat) :
    Returns (testfsRemoveInode i) s := by
  have href : ∀ l, ref v i l = 0 := by
    intro l
    cases l <;> simp [ref,hz,Dinode.zero]
  have hsize : 0 ≤ eBlockNr (v.inode i).iSize.toInt := by
    rw [hz]
    exact (by decide : 0 ≤ eBlockNr (0 : BitVec 64).toInt)
  exact (testfsRemoveInode_returns_iff hm hi h.stands h.accounts (fun hc => absurd (href _) hc)
    hsize hused hpos).mpr fun l hl => absurd (href l) hl

/-- The creation of a file returns in this case. -/
theorem testfsCreateFileOrDir_undone_returns (h : Valid s c v) (hi : Held c d) (hd : IsDir v d es)
    (hused : v.inodeUsed d = true) (hfresh : ∀ i, v.inodeUsed i = false → v.inode i = Dinode.zero)
    (hcount : v.usedInodes.toNat < nrInodes) (hu : CreateUndone v d es .file name) :
    Returns (testfsCreateFileOrDir d .file name) s := by
  obtain ⟨k,hk,hfree⟩ := hu.free
  have hlook := testfsDirNameToInodeNr_total h hi hd name
  refine Returns.bind hlook.returns (hlook.wlp.mono ?_)
  rintro r t ⟨rfl,hr⟩
  refine Returns.ite (fun _ => Returns.pure _ t) fun _ => ?_
  refine Returns.bind (testfsCreateInode_returns h.stands hk hfree .file)
    ((testfsCreateInode_valid h .file).mono ?_)
  intro r1 t1 h1
  cases r1 with
  | none => exact Returns.pure _ t1
  | some i =>
    obtain ⟨v1,hv1,ho⟩ := h1
    have hz := hfresh i ho.unused
    have hdi : d ≠ i := by
      rintro rfl
      rw [ho.unused] at hused
      cases hused
    have hdv1 : IsDir v1 d es := isDir_congr hd (ho.inode d hdi) (congrFun ho.logical d)
    have hundone : AddUndone v1 d es name := by
      refine ⟨⟨hu.far,?_,?_⟩,hu.noSlot,hu.fits⟩
      · rw [ho.ref]
        exact hu.indirect
      · rw [(used_congr h hv1 ho.ref).2,ho.maxBlocks]
        exact hu.last
    refine Returns.bind (Returns.pure 0 t1) (Wlp.pure_iff.mpr ?_)
    refine Returns.ite (fun hneg => absurd hneg (by decide)) fun _ => ?_
    have hadd := testfsAddDirent_undone hv1 (Held.hold (c := c.touch i) hi i) hdv1 hundone i
    refine Returns.bind hadd.returns ((hadd.wlp.and (testfsAddDirent_spec (Set.mem_insert d _)
      (hv1.touch d) hdv1 (lookup_of_noSlot hu.noSlot) i)).mono ?_)
    rintro r3 t3 ⟨⟨hr3,-⟩,⟨-,h3,-⟩ | ⟨w,hpos,-⟩⟩
    · refine Returns.ite (fun _ => ?_) fun hc => absurd hr3 hc
      refine Returns.bind ?_ fun _ t4 _ => Returns.pure _ t4
      refine testfsRemoveInode_returns (x := InodeType.code .file) ?_ h3 (held_hold (c.touch i) i)
        ?_ ?_ ?_
      · exact Set.mem_insert_of_mem d (Set.mem_insert i _)
      · rw [ho.self,hz]
      · rw [ho.inodeUsed,Function.update_self]
      · rw [ho.usedInodes,toNat_add_one _ (by simp only [nrInodes] at hcount; omega)]
        exact Nat.succ_pos _
    · omega

end Entries

end DirtyParents
end OsLabs

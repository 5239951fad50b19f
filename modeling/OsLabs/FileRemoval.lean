import Mathlib.Data.BitVec
import Mathlib.Tactic
import OsLabs.Bytes
import OsLabs.Wlp
import OsLabs.Holdings
import OsLabs.FsModel
import OsLabs.DirModel
import OsLabs.FsVolume
import OsLabs.FsAccounts
import OsLabs.FsRemoval
import OsLabs.Dirents
import OsLabs.DirMap
import OsLabs.DirOps
import OsLabs.FsCreation
import OsLabs.FsTree
import OsLabs.FsCommands
import OsLabs.FsReading
import OsLabs.FsWriting
import OsLabs.FsFreeing
import OsLabs.FsGrowth
import OsLabs.DirReplies
import OsLabs.FsSessions
import OsLabs.InodeReferences
import OsLabs.BlockNarrowing
import OsLabs.FsFiles
import OsLabs.FsFrames
import OsLabs.FileHistory

/-!
# Removing a file that was written

`cmd_rm` finds the entry of a file, overwrites it in place, and removes the inode. The blocks that
it frees lie below a bound that is computed from the size of the file, while the blocks that were
allocated are those of the writes. When no write lies beyond the bound, the free maps are restored,
and otherwise an assertion fails.
-/

namespace OsLabs
namespace FileRemoval

open Bytes FsModel DirModel FsVolume FsAccounts FsRemoval Dirents DirMap DirOps FsCreation Holdings
open FsTree FsCommands FsReading FsWriting FsFreeing FsGrowth FsSessions DirReplies BlockNarrowing
open InodeReferences FsFiles FsFrames FileHistory

/-! ## The bound -/

/-- Bytes are written, and no byte of another write comes after them. -/
structure Furthest (y : Write) (ws : List Write) : Prop where
  mem : y ∈ ws
  ne : y.buf ≠ []
  le : ∀ x ∈ ws, x.buf ≠ [] → x.offset + x.buf.length ≤ y.offset + y.buf.length

section Bounds

variable {v : Volume} {i : ℕ} {ws : List Write}

theorem eBlockNr_zero : eBlockNr 0 = 0 := by decide

theorem eBlockNr_end {x : Write} (h : x.Accepted) (hb : x.buf ≠ []) :
    eBlockNr (x.offset + x.buf.length : ℕ) = x.nr + 1 := by
  have hn : toInt32 (x.offset/blockSize : ℕ) = x.nr := by
    rw [← blockNr_natCast,Write.nr,Int.toNat_of_nonneg h.nonneg]
  have hlt := h.nr_lt
  have hpos := List.length_pos_iff.mpr hb
  have hfit := h.fit
  obtain ⟨-,hdiv⟩ := le_div_of_toInt32 h.lt hn
  have hsum : ((x.offset + x.buf.length : ℕ) : ℤ) + blockSize - 1 =
      (x.offset + x.buf.length + (blockSize - 1) : ℕ) := by
    simp only [blockSize]
    omega
  have hquot : (x.offset + x.buf.length + (blockSize - 1))/blockSize = x.offset/blockSize + 1 := by
    simp only [blockSize] at hfit ⊢
    omega
  have hmax : x.offset + x.buf.length + (blockSize - 1) < 2^63 := by
    simp only [blockSize] at hfit hdiv ⊢
    omega
  rw [eBlockNr,hsum,toInt64_natCast hmax,(natCast_tdiv_blockSize _).1,hquot]
  generalize x.offset/blockSize = k at *
  simp only [nrLogical] at hlt
  rw [toInt32,Int.bmod_def] at *
  split at hn <;> split <;> omega

theorem Furthest.extent_eq {y : Write} (h : Furthest y ws) :
    extent ws = y.offset + y.buf.length := by
  have hle := le_extent h.mem h.ne
  have hpos := List.length_pos_iff.mpr h.ne
  rcases extent_cases ws with h0 | ⟨x,hx,hb,he⟩
  · omega
  · have := h.le x hx hb
    omega

/-- The bound is not negative, and every write lies below it exactly if its block does not come
after that of the write that reaches furthest. -/
theorem below_iff (h : ∀ x ∈ ws, x.Accepted) : 0 ≤ eBlockNr (extent ws) ∧
    ((∀ x ∈ ws, blockNr x.offset < eBlockNr (extent ws)) ↔
      ∀ x ∈ ws, ∃ y, Furthest y ws ∧ blockNr x.offset ≤ blockNr y.offset) := by
  have hend : ∀ y, Furthest y ws → eBlockNr (extent ws) = blockNr y.offset + 1 := by
    intro y hy
    rw [hy.extent_eq,eBlockNr_end (h y hy.mem) hy.ne,Write.nr,
      Int.toNat_of_nonneg (h y hy.mem).nonneg]
  rcases extent_cases ws with h0 | ⟨y,hy,hb,he⟩
  · rw [h0,Nat.cast_zero,eBlockNr_zero]
    refine ⟨le_rfl,forall₂_congr fun x hx => iff_of_false (not_lt.mpr (h x hx).nonneg) ?_⟩
    rintro ⟨y,hy,-⟩
    have hpos := List.length_pos_iff.mpr hy.ne
    have := hy.extent_eq
    omega
  · have hfar : Furthest y ws := ⟨hy,hb,fun x hx hbx => he ▸ le_extent hx hbx⟩
    have hnonneg := (h y hy).nonneg
    refine ⟨by rw [hend y hfar]; omega,forall₂_congr fun x hx => ⟨fun hlt => ?_,?_⟩⟩
    · rw [hend y hfar] at hlt
      exact ⟨y,hfar,by omega⟩
    · rintro ⟨z,hz,hle⟩
      rw [hend z hz]
      omega

theorem nr_slotOf {n : ℕ} (hn : n < nrLogical) : Slot.nr (slotOf n) = n := by
  simp only [nrLogical] at hn
  rw [slotOf]
  split
  · rename_i hd
    simp only [Slot.nr,Fin.val_ofNat]
    exact Nat.mod_eq_of_lt hd
  · rename_i hd
    simp only [Slot.nr,Fin.val_ofNat,nrDirectBlocks,nrIndirectBlocks] at hd ⊢
    omega

/-- The bound covers the slots of a file exactly when no write lies beyond it. -/
theorem covered_iff (h : Recorded v i ws) (e : ℤ) :
    Covered v i e ↔ ∀ x ∈ ws, blockNr x.offset < e := by
  have hnr : ∀ x ∈ ws, (Slot.nr (slotOf x.nr) : ℤ) = blockNr x.offset := fun x hx => by
    rw [nr_slotOf (h.accepted x hx).nr_lt,Write.nr,Int.toNat_of_nonneg (h.accepted x hx).nonneg]
  refine ⟨fun hcov x hx => ?_,fun hall l hl => ?_⟩
  · rw [← hnr x hx]
    exact hcov _ ((h.slots _).mpr ⟨x,hx,.inl rfl⟩)
  · obtain ⟨x,hx,hfill⟩ := (h.slots l).mp hl
    have hlt := hall x hx
    rw [← hnr x hx] at hlt
    rcases hfill with hl | ⟨hl,hge⟩
    · rwa [hl]
    · -- the indirect block comes with an entry
      rw [nr_slotOf (h.accepted x hx).nr_lt] at hlt
      rw [hl,Slot.nr]
      exact lt_of_le_of_lt (Int.ofNat_le.mpr hge) hlt

end Bounds

/-! ## The entry in the directory -/

section Entries

variable {s : Testfs} {c : Memory} {v : Volume} {E : ℕ → List Entry} {name : CString} {i : ℕ}

theorem ne_dots_of_namesFile (h : Ready s c v E) (hf : NamesFile s name i) :
    name ≠ dot ∧ name ≠ dotdot := by
  obtain ⟨e,hlook,rfl,hfile⟩ := (namesFile_iff h).mp hf
  have hlt := h.tree.lt_of_directory h.curDir
  constructor
  · rintro rfl
    rw [h.tree.dot_entry _ h.curDir,Option.some.injEq] at hlook
    rw [← hlook,toNat_ofNat_inode hlt] at hfile
    exact hfile h.curDir
  · rintro rfl
    obtain ⟨p,hp,hparent⟩ := h.tree.exists_lookup_dotdot h.curDir
    have hdir : Directory v p := by
      rcases hparent with ⟨-,rfl⟩ | ⟨n,e,he,-⟩
      · exact h.tree.root
      · exact h.tree.directory_of_mem he
    rw [hp,Option.some.injEq] at hlook
    rw [← hlook,toNat_ofNat_inode (h.tree.lt_of_directory hdir)] at hfile
    exact hfile hdir

theorem leaving_of_namesFile (h : Ready s c v E) (hf : NamesFile s name i) :
    ∃ e, Leaving v E c.curDir name e ∧ e.nr.toNat = i := by
  obtain ⟨hdot,hdotdot⟩ := ne_dots_of_namesFile h hf
  obtain ⟨e,hlook,rfl,hfile⟩ := (namesFile_iff h).mp hf
  exact ⟨e,⟨hdot,hdotdot,hlook,fun hdir => absurd hdir hfile⟩,rfl⟩

end Entries

/-! ## The command -/

/-- The free maps are these, and the counts in the superblock are theirs. -/
structure Restored (maps : Maps) (v : Volume) : Prop where
  inodeUsed : v.inodeUsed = maps.inodeUsed
  blockUsed : v.blockUsed = maps.blockUsed
  usedInodes : v.usedInodes.toNat = held (Finset.range nrInodes) false maps.inodeUsed
  usedBlocks : v.usedBlocks.toNat = held (Finset.range nrBlocks) false maps.blockUsed

section Removing

variable {s t : Testfs} {c c' : Memory} {v w w' : Volume} {E : ℕ → List Entry} {name : CString}
  {i d : ℕ} {maps : Maps} {ws : List Write}

theorem Ready.restored (h : Ready s c v E) (hi : v.inodeUsed = maps.inodeUsed)
    (hb : v.blockUsed = maps.blockUsed) : Restored maps v :=
  ⟨hi,hb,by rw [← hi,h.tree.count],by rw [← hb,h.valid.accounts.used]⟩

theorem without_of_removed (h : Valid s c v) (h' : Valid t c' w') (hf : Frame d v w)
    (hd : ref w d = ref v d) (hr : Removed i w w') :
    w'.inodeUsed = (without v i).inodeUsed ∧ w'.blockUsed = (without v i).blockUsed := by
  constructor
  · rw [hr.inodeUsed,hf.inodeUsed]
    rfl
  · funext k
    rw [Bool.eq_iff_iff,used_iff h',without_blockUsed_iff h]
    have hrow : ∀ j, j ≠ i → ref w' j = ref v j := by
      intro j hj
      rw [hr.ref j hj]
      by_cases hjd : j = d
      · rw [hjd,hd]
      · exact hf.ref j hjd
    constructor
    · rintro ⟨j,hj⟩
      have hji : j ≠ i := by
        rintro rfl
        exact not_owned_of_ref_zero hr.ref_self hj
      exact ⟨j,hji,(owned_congr (hrow j hji)).mp hj⟩
    · rintro ⟨j,hji,hj⟩
      exact ⟨j,(owned_congr (hrow j hji)).mpr hj⟩

/-- `cmd_rm` of a file goes no further than the assertions if the bound does not cover the slots. -/
theorem cmdRm_covered (h : Ready s c v E) (hf : NamesFile s name i)
    (h0 : 0 ≤ eBlockNr (v.inode i).iSize.toInt) :
    Wlp (cmdRm [name]) s (fun _ _ => Covered v i (eBlockNr (v.inode i).iSize.toInt)) := by
  obtain ⟨e,hl,rfl⟩ := leaving_of_namesFile h hf
  simp only [cmdRm,cmdRmWith,Wlp.bind_iff,Wlp.get_iff,monadLift_self]
  rw [h.curDir_eq]
  refine (hl.removeDirent (c := c.touch c.curDir) h.touch (Set.mem_insert ..)).wlp.mono ?_
  rintro _ t ⟨rfl,w,hw,hframe,-⟩
  rw [if_neg (by omega),Int.toNat_natCast]
  simp only [Wlp.bind_iff]
  refine (testfsGetInode_valid hw e.nr.toNat).mono fun _ t1 h1 => ?_
  intro r2 t2 h2 _ t3 h3
  exact Wlp.pure_iff.mpr ((hl.removeInode_returns_iff h h1 hframe h0).mp ⟨r2,t2,h2⟩)

/-- Otherwise it succeeds, and leaves the maps without the file. -/
theorem cmdRm_total (h : Ready s c v E) (hf : NamesFile s name i)
    (h0 : 0 ≤ eBlockNr (v.inode i).iSize.toInt)
    (hcov : Covered v i (eBlockNr (v.inode i).iSize.toInt)) :
    Total (cmdRm [name]) s (fun r t => r.1 = 0 ∧ Restored (without v i) (volume t)) := by
  obtain ⟨-,hlt⟩ := marked_of_namesFile h hf
  obtain ⟨e,hl,rfl⟩ := leaving_of_namesFile h hf
  suffices hmaps : Total (cmdRm [name]) s (fun r t => r.1 = 0 ∧
      (volume t).inodeUsed = (without v e.nr.toNat).inodeUsed ∧
      (volume t).blockUsed = (without v e.nr.toNat).blockUsed) by
    refine (hmaps.and_wlp (cmdRm_spec h name)).mono ?_
    rintro r t ⟨⟨hr,hi,hb⟩,⟨hneg,-⟩ | ⟨-,j,w,-,-,hw⟩⟩
    · omega
    · rw [hw.valid.stands.volume_eq] at hi hb ⊢
      exact ⟨hr,Ready.restored hw hi hb⟩
  refine Total.bind (Total.get ?_)
  rw [h.curDir_eq]
  refine Total.bind ((hl.removeDirent (c := c.touch c.curDir) h.touch (Set.mem_insert ..)).mono ?_)
  rintro _ t ⟨rfl,w,hw,hframe,href⟩
  rw [if_neg (by omega),Int.toNat_natCast]
  refine Total.bind (((testfsGetInode_returns hw.stands hlt).total
    (testfsGetInode_valid hw e.nr.toNat)).mono fun _ t1 h1 => ?_)
  refine Total.bind ((((hl.removeInode_returns_iff h h1 hframe h0).mpr hcov).total
    (testfsRemoveInode_valid (Set.mem_insert _ _) (h1.touch e.nr.toNat))).mono ?_)
  rintro _ t2 ⟨w2,h2,hr2⟩
  have h2' := undo_memory h.touch.counted h2
  obtain ⟨hi,hb⟩ := without_of_removed h.valid h2' hframe href hr2
  refine Total.bind (((testfsSyncInode_returns h2'.stands h.held).total
    (testfsSyncInode_valid h2' c.curDir)).mono fun _ t3 h3 => ?_)
  have hv := h3.stands.volume_eq
  exact Total.pure ⟨rfl,by rw [hv]; exact hi,by rw [hv]; exact hb⟩

end Removing

/-! ## The life of a file and its end -/

section Lives

variable {s t : Testfs} {i : ℕ} {maps : Maps} {ws : List Write} {name : CString}

theorem Life.covered_iff (h : Life i maps ws s) :
    0 ≤ eBlockNr ((volume s).inode i).iSize.toInt ∧
      (Covered (volume s) i (eBlockNr ((volume s).inode i).iSize.toInt) ↔
        ∀ x ∈ ws, ∃ y, Furthest y ws ∧ blockNr x.offset ≤ blockNr y.offset) := by
  obtain ⟨-,hrec,-⟩ := h.recorded
  obtain ⟨h0,hiff⟩ := below_iff hrec.accepted
  rw [hrec.size,FileRemoval.covered_iff hrec]
  exact ⟨h0,hiff⟩

/-- Removing a file gives back exactly what it used, if and only if the block number of no write, as
an `int`, is larger than that of the write that reaches furthest. -/
theorem cmdRm_restores_iff (h : Life i maps ws s) (hf : NamesFile s name i) :
    Total (cmdRm [name]) s (fun r t => r.1 = 0 ∧ Restored maps (volume t)) ↔
      ∀ x ∈ ws, ∃ y, Furthest y ws ∧ blockNr x.offset ≤ blockNr y.offset := by
  obtain ⟨hs,-,rfl⟩ := h.recorded
  obtain ⟨-,c,E,hready⟩ := sound_of_run hs
  obtain ⟨h0,hiff⟩ := Life.covered_iff h
  rw [← hiff]
  refine ⟨fun hr => ?_,cmdRm_total hready hf h0⟩
  obtain ⟨r,t,hrun,-⟩ := hr
  exact cmdRm_covered hready hf h0 r t hrun

/-- This is so as long as bytes are written and no number is changed by the conversion. -/
theorem furthest_of_lt (h : ∀ x ∈ ws, x.buf ≠ [] ∧ x.offset < 2^44)
    (ha : ∀ x ∈ ws, x.Accepted) :
    ∀ x ∈ ws, ∃ y, Furthest y ws ∧ blockNr x.offset ≤ blockNr y.offset := by
  intro x hx
  obtain ⟨hb,hlt⟩ := h x hx
  have hle := le_extent hx hb
  have hpos := List.length_pos_iff.mpr hb
  rcases extent_cases ws with h0 | ⟨y,hy,hby,he⟩
  · omega
  · have hfit := (ha y hy).fit
    refine ⟨y,⟨hy,hby,fun z hz hbz => he ▸ le_extent hz hbz⟩,?_⟩
    rw [blockNr_of_lt hlt,blockNr_of_lt (h y hy).2]
    simp only [blockSize] at *
    omega

end Lives

/-! ## A file that is written twice -/

/-- A file with one byte in its sixth block, and room for more. -/
theorem written_once : ∃ i maps s, Life i maps [⟨40960,[98]⟩] s ∧ NamesFile s fileName i ∧
    Fits (volume s) i 0 := by
  obtain ⟨i,maps,c,E,hready,hfile,hf,hlife⟩ := fileTestfs_life
  have ho : strToOffset nearText = some ((40960 : ℕ) : ℤ) := by decide
  obtain ⟨hsound,-⟩ := sound_of_run fileTestfs_reachable
  obtain ⟨r1,s,hwrite,hr1,hcount⟩ := cmdWrite_total hready hf letter ho (n := 5)
    (by decide) (by decide) (hfile.fits i (by decide))
  have hstored := cmdWrite_stored hready hf nearText letter r1 s hwrite
  obtain ⟨-,o,w,-,hvol,hst⟩ := hstored.resolve_left fun hc => by omega
  refine ⟨i,_,s,hlife.wrote hf ho hwrite hr1,cmdWrite_names hsound hready hf _ _ r1 s hwrite,
    by decide,?_⟩
  have hneed := needed_le_two (volume s) i 0
  have hone := demand_le_one (volume fileTestfs) i 5
  have hmax : (volume s).maxBlocks = (volume fileTestfs).maxBlocks := by
    rw [hvol]
    exact hst.written.frame.maxBlocks
  have hused := hfile.usedBlocks
  have htotal := hfile.maxBlocks
  rw [hcount (by decide),hmax]
  omega

theorem written_once_restored : ∃ i maps s, Life i maps [⟨40960,[98]⟩] s ∧
    Total (cmdRm [fileName]) s (fun r t => r.1 = 0 ∧ Restored maps (volume t)) := by
  obtain ⟨i,maps,s,hlife,hf,-⟩ := written_once
  obtain ⟨-,hrec,-⟩ := hlife.recorded
  exact ⟨i,maps,s,hlife,(cmdRm_restores_iff hlife hf).mpr
    (furthest_of_lt (by decide) hrec.accepted)⟩

/-- After a second byte, at an offset that is taken for the start of the file, an assertion fails
when the file is removed. -/
theorem written_twice_not_removed : ∃ i maps s, Life i maps [⟨35184372088832,[98]⟩,⟨40960,[98]⟩] s ∧
    NamesFile s fileName i ∧ ¬Returns (cmdRm [fileName]) s := by
  obtain ⟨i,maps,s,hlife,hf,hfits⟩ := written_once
  obtain ⟨hs,-,-⟩ := hlife.recorded
  obtain ⟨hsound,c,E,hready⟩ := sound_of_run hs
  have ho : strToOffset farText = some ((35184372088832 : ℕ) : ℤ) := by decide
  obtain ⟨r,t,hwrite,hr,-⟩ := cmdWrite_total hready hf letter ho (n := 0)
    (by decide) (by decide) hfits
  have hlife' := hlife.wrote hf ho hwrite hr
  have hf' := cmdWrite_names hsound hready hf _ _ r t hwrite
  obtain ⟨ht,-,-⟩ := hlife'.recorded
  obtain ⟨-,c',E',hready'⟩ := sound_of_run ht
  obtain ⟨h0,hiff⟩ := Life.covered_iff hlife'
  refine ⟨i,maps,t,hlife',hf',fun hret => ?_⟩
  obtain ⟨r',u,hrun⟩ := hret
  have hcov := hiff.mp (cmdRm_covered hready' hf' h0 r' u hrun)
  obtain ⟨y,hy,hle⟩ := hcov ⟨40960,[98]⟩ (.tail _ (.head _))
  rcases List.mem_pair.mp hy.mem with rfl | rfl
  · exact absurd hle (by decide)
  · exact absurd (hy.le _ (.head _) (List.cons_ne_nil _ _)) (by decide)

end FileRemoval
end OsLabs

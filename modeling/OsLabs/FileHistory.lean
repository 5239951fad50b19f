import Mathlib.Data.BitVec
import Mathlib.Tactic
import OsLabs.Bytes
import OsLabs.Wlp
import OsLabs.FsModel
import OsLabs.DirModel
import OsLabs.FsVolume
import OsLabs.FsAccounts
import OsLabs.FsRemoval
import OsLabs.Dirents
import OsLabs.DirMap
import OsLabs.DirOps
import OsLabs.FsCreation
import OsLabs.FsTree
import OsLabs.FsCommands
import OsLabs.FsReading
import OsLabs.FsWriting
import OsLabs.FsMaking
import OsLabs.FsGrowth
import OsLabs.WriteEffects
import OsLabs.FsSessions
import OsLabs.InodeReferences
import OsLabs.BlockNarrowing
import OsLabs.FsFiles
import OsLabs.FsFrames

/-!
# The life of a file

A file is made by `cmd_create`, and since then it has been written by successful `cmd_write`
commands, with any other steps in between. The list of these writes determines its size, its
contents and the slots of its inode that refer to a block, and what the free maps are without the
file is not changed by writing it.
-/

namespace OsLabs
namespace FileHistory

open Bytes FsModel DirModel FsVolume FsAccounts FsRemoval Dirents DirMap DirOps FsCreation
open FsTree FsCommands FsReading FsWriting FsGrowth WriteEffects FsSessions BlockNarrowing FsFiles
open InodeReferences FsFrames FsMaking

/-! ## Free maps without a file -/

@[ext] structure Maps where
  inodeUsed : ℕ → Bool
  blockUsed : ℕ → Bool

/-- The inode refers to the data block `k`. -/
def Owned (v : Volume) (i k : ℕ) : Prop := ∃ l, ref v i l = dataStart + k

instance (v : Volume) (i k : ℕ) : Decidable (Owned v i k) :=
  inferInstanceAs (Decidable (∃ l, ref v i l = dataStart + k))

/-- The free maps as they are without an inode and its blocks. -/
def without (v : Volume) (i : ℕ) : Maps where
  inodeUsed := Function.update v.inodeUsed i false
  blockUsed := fun k => v.blockUsed k && !decide (Owned v i k)

/-- The free maps of `v`, but with the blocks that the directory `d` has in `w`. -/
def withParent (v : Volume) (d : ℕ) (w : Volume) : Maps where
  inodeUsed := v.inodeUsed
  blockUsed := fun k => (without v d).blockUsed k || decide (Owned w d k)

section Blocks

variable {s t : Testfs} {c c' : Memory} {v w : Volume} {i j k : ℕ}

theorem used_iff (h : Valid s c v) (k : ℕ) : v.blockUsed k = true ↔ ∃ j, Owned v j k := by
  have hcov := h.accounts.balanced.covered (dataStart + k)
  have hsub : dataStart + k - dataStart = k := Nat.add_sub_cancel_left ..
  rw [Used,hsub] at hcov
  constructor
  · intro hused
    have hk : k < nrBlocks := by
      rw [← h.stands.blockUsed_eq,bits,Bool.and_eq_true,decide_eq_true_eq,
        h.stands.coherent.blockBits] at hused
      simp only [nrBlocks]
      exact hused.1
    obtain ⟨-,j,l,hl⟩ := hcov.mp ⟨by omega,by omega,hused⟩
    exact ⟨j,l,hl⟩
  · rintro ⟨j,l,hl⟩
    exact (hcov.mpr ⟨by simp,j,l,hl⟩).2.2

theorem owner_unique (h : Valid s c v) (hi : Owned v i k) (hj : Owned v j k) : i = j := by
  obtain ⟨l,hl⟩ := hi
  obtain ⟨l',hl'⟩ := hj
  exact (h.accounts.balanced.unique i l j l' (by rw [hl]; simp) (hl.trans hl'.symm)).1

/-- What remains without an inode are the blocks of the others. -/
theorem without_blockUsed_iff (h : Valid s c v) (i k : ℕ) :
    (without v i).blockUsed k = true ↔ ∃ j, j ≠ i ∧ Owned v j k := by
  simp only [without,Bool.and_eq_true,used_iff h,Bool.not_eq_true',decide_eq_false_iff_not]
  constructor
  · rintro ⟨⟨j,hj⟩,hi⟩
    exact ⟨j,fun hc => hi (hc ▸ hj),hj⟩
  · rintro ⟨j,hne,hj⟩
    exact ⟨⟨j,hj⟩,fun hi => hne (owner_unique h hj hi)⟩

theorem not_owned_of_ref_zero (h : ∀ l, ref v i l = 0) : ¬Owned v i k := by
  rintro ⟨l,hl⟩
  rw [h l] at hl
  simp only [dataStart] at hl
  omega

theorem owned_congr (h : ref w j = ref v j) : Owned w j k ↔ Owned v j k := by
  rw [Owned,Owned,h]

/-- The maps without an inode do not change with it. -/
theorem without_eq (h : Valid s c v) (h' : Valid t c' w) (hu : w.inodeUsed = v.inodeUsed)
    (hr : ∀ j, j ≠ i → ref w j = ref v j) : without w i = without v i := by
  have hblocks : (without w i).blockUsed = (without v i).blockUsed := by
    funext k
    rw [Bool.eq_iff_iff,without_blockUsed_iff h',without_blockUsed_iff h]
    exact exists_congr fun j => and_congr_right fun hj => owned_congr (hr j hj)
  refine Maps.ext ?_ hblocks
  rw [without,without,hu]

theorem marked_of_owned {E : ℕ → List Entry} (ht : Tree v E) (h : Owned v j k) : Marked v j := by
  by_contra hu
  exact not_owned_of_ref_zero (fun l => ref_zero (ht.unmarked j hu) l) h

/-- Making a file changes the maps by its inode and by the blocks of the directory. -/
theorem without_made {d : ℕ} {E E' : ℕ → List Entry} {es : List Entry} {name : CString}
    {type : InodeType} (h : Valid s c v) (h' : Valid t c' w) (ht : Tree v E)
    (ht' : Tree w E') (hm : Made d es name type i v w) (hd : d ≠ i)
    (hr : ∀ j, j ≠ d → Marked v j → ref w j = ref v j) : without w i = withParent v d w := by
  refine Maps.ext ?_ ?_
  · show Function.update w.inodeUsed i false = v.inodeUsed
    rw [hm.inodeUsed,Function.update_idem,← hm.unused,Function.update_eq_self]
  · funext k
    rw [Bool.eq_iff_iff,without_blockUsed_iff h',withParent,Bool.or_eq_true,
      without_blockUsed_iff h,decide_eq_true_eq]
    constructor
    · rintro ⟨j,hji,hj⟩
      by_cases hjd : j = d
      · exact .inr (hjd ▸ hj)
      · have hmark : Marked v j := by
          have hw := marked_of_owned ht' hj
          rwa [Marked,hm.inodeUsed,Function.update_of_ne hji] at hw
        exact .inl ⟨j,hjd,(owned_congr (hr j hjd hmark)).mp hj⟩
    · rintro (⟨j,hjd,hj⟩ | hj)
      · have hmark := marked_of_owned ht hj
        refine ⟨j,?_,(owned_congr (hr j hjd hmark)).mpr hj⟩
        rintro rfl
        rw [Marked,hm.unused] at hmark
        cases hmark
      · exact ⟨d,hd,hj⟩

end Blocks

/-! ## Writing by command -/

section Writing

variable {s t : Testfs} {c : Memory} {v : Volume} {E : ℕ → List Entry} {name os buf : CString}
  {i : ℕ}

/-- What a successful `cmd_write` has done with the volume. -/
structure Stored (i o : ℕ) (buf : List Byte) (v w : Volume) : Prop where
  nonneg : 0 ≤ blockNr o
  written : Written i (blockNr o).toNat (o % blockSize) buf o v w
  fills : Fills v w i (blockNr o).toNat

theorem testfsWriteData_stored (hm : i ∈ c.dirty) (h : Valid s c v) (hi : Held c i)
    (buf : List Byte) (o : ℕ) :
    Wlp (testfsWriteData i buf o) s (fun r t => (r < 0 ∧ Valid t c v) ∨
      (0 ≤ r ∧ ∃ w, Valid t c w ∧ Stored i o buf v w)) := by
  intro r t hrun
  obtain ⟨hdiv,hmod⟩ := natCast_tdiv_blockSize o
  have hspec := testfsWriteData_spec (c := c.resize s.dev.size) hm (h.stands.resize le_rfl)
    h.accounts buf o r t hrun
  rw [hdiv,hmod,← blockNr_natCast,Int.toNat_natCast] at hspec
  rcases hspec with ⟨hr,ht,-⟩ | ⟨w,rfl,ht,h0,-,hw,hin⟩
  · exact .inl ⟨hr,h.same rfl ht⟩
  · have hn : toInt32 (o/blockSize : ℕ) = (blockNr o).toNat := by
      rw [← blockNr_natCast,Int.toNat_of_nonneg h0]
    have htotal := (testfsWriteData_total hm h hi buf hn hw.offset_le).wlp _ t hrun
    have hfills := (htotal.resolve_left fun hc => absurd hc.1 (by omega)).2.2
    rw [ht.volume_eq] at hfills
    exact .inr ⟨by omega,w,h.write rfl ht hw.accounts hw.frame hin,h0,hw,hfills⟩

/-- `cmd_write` of a file fails without an effect, or has stored its argument. -/
theorem cmdWrite_stored (h : Ready s c v E) (hf : NamesFile s name i) (os buf : CString) :
    Wlp (cmdWrite [name,os,buf]) s (fun r t => (r.1 < 0 ∧ volume t = v) ∨
      (0 ≤ r.1 ∧ ∃ o : ℕ, ∃ w, strToOffset os = some (o : ℤ) ∧ volume t = w.sync i ∧
        Stored i o buf.1 v w)) := by
  have hv := h.valid.stands.volume_eq
  simp only [cmdWrite,cmdWriteWith,monadLift_self]
  cases ho : strToOffset os with
  | none => exact Wlp.pure_iff.mpr (.inl ⟨by decide,hv⟩)
  | some o =>
    simp only
    rw [Wlp.ite_iff]
    refine ⟨fun _ => Wlp.pure_iff.mpr (.inl ⟨by decide,hv⟩),fun h0 => ?_⟩
    lift o to ℕ using not_lt.mp h0
    simp only [Wlp.bind_iff,Wlp.get_iff]
    refine (testfsGetFileInode_total h hf).wlp.mono ?_
    rintro r t ⟨rfl,ht⟩
    simp only [Wlp.bind_iff]
    refine (testfsWriteData_stored (Set.mem_insert i _) (ht.touch i) (held_hold c i) buf.1 o).mono ?_
    intro r t1 hr
    -- the inode is stored and dropped
    have hend : ∀ {w : Volume} {c' : Memory}, Valid t1 c' w → Wlp (testfsSyncInode i) t1 fun _ t2 =>
        Wlp (testfsPutInode i) t2 fun _ t3 => volume t3 = w.sync i := by
      intro w c' hw
      refine (testfsSyncInode_valid hw i).mono fun _ t2 h2 => ?_
      exact (testfsPutInode_valid h2 i).mono fun _ t3 h3 => h3.stands.volume_eq
    rcases hr with ⟨hneg,hw⟩ | ⟨hpos,w,hw,hstored⟩
    · refine (hend hw).mono fun _ t2 h2 => h2.mono fun _ t3 h3 => Wlp.pure_iff.mpr (.inl ⟨hneg,?_⟩)
      rw [h3,Volume.sync_of_eq v i (congrFun h.synced i)]
    · refine (hend hw).mono fun _ t2 h2 => h2.mono fun _ t3 h3 => Wlp.pure_iff.mpr ?_
      exact .inr ⟨hpos,o,w,rfl,h3,hstored⟩

/-- `cmd_write` where there is room for the block; a direct block is the only one that is taken. -/
theorem cmdWrite_total (h : Ready s c v E) (hf : NamesFile s name i) (buf : CString) {o n : ℕ}
    (ho : strToOffset os = some (o : ℤ)) (hn : blockNr o = n)
    (hfit : o % blockSize + buf.1.length ≤ blockSize) (hfits : Fits v i n) :
    Total (cmdWrite [name,os,buf]) s (fun r t => 0 ≤ r.1 ∧ (n < nrDirectBlocks →
      (volume t).usedBlocks.toNat = v.usedBlocks.toNat + demand v i n)) := by
  rw [blockNr_natCast] at hn
  simp only [cmdWrite,cmdWriteWith,ho,monadLift_self]
  rw [if_neg (by omega)]
  refine Total.bind (Total.get (Total.bind ((testfsGetFileInode_total h hf).mono ?_)))
  rintro _ t ⟨rfl,ht⟩
  have heffects := testfsWriteData_effects ht.stands ht.accounts i buf.1 o
  rw [(natCast_tdiv_blockSize o).1,hn,Int.toNat_natCast] at heffects
  have htotal := testfsWriteData_total (Set.mem_insert i _) (ht.touch i) (held_hold c i) buf.1 hn hfit
  refine Total.bind (((htotal.and_wlp heffects).and_wlp (testfsWriteData_stored
    (Set.mem_insert i _) (ht.touch i) (held_hold c i) buf.1 o)).mono ?_)
  rintro r t1 ⟨⟨hr,-,he⟩,hst⟩
  obtain ⟨rfl,-⟩ := hr.resolve_left fun hc => hc.2.1 hfits
  obtain ⟨-,w,hw,-⟩ := hst.resolve_left fun hc => by omega
  refine Total.bind (((testfsSyncInode_returns hw.stands (held_hold c i)).total
    (testfsSyncInode_valid hw i)).mono fun _ t2 h2 => ?_)
  have hclean : ¬Dirty t2 i := fun hd => (h2.stands.memory.dirty_mem i hd).2 rfl
  refine Total.bind (((testfsPutInode_returns h2.stands (held_hold c i) hclean).total
    (testfsPutInode_valid h2 i)).mono fun _ t3 h3 => ?_)
  refine Total.pure ⟨Int.natCast_nonneg _,fun hdirect => ?_⟩
  rw [h3.stands.volume_eq,← he.count (Int.natCast_nonneg _) hdirect,hw.stands.usedBlocks_eq]
  rfl

theorem NamesFile.untouched {t : Testfs} {c' : Memory} {w : Volume} {E' : ℕ → List Entry}
    (h : Ready s c v E) (h' : Ready t c' w E') (hcur : c'.curDir = c.curDir)
    (hu : Untouched c.curDir v w) (htype : (w.inode i).iType = (v.inode i).iType)
    (hf : NamesFile s name i) : NamesFile t name i := by
  obtain ⟨e,hlook,rfl,hfile⟩ := (namesFile_iff h).mp hf
  have hdir : IsDir w c'.curDir (E c.curDir) := by
    rw [hcur]
    exact isDir_congr h.isDir hu.inode hu.logical
  obtain ⟨r,u,hrun,rfl,hr⟩ := testfsDirNameToInodeNr_total h'.valid h'.held hdir name
  rw [hlook] at hr
  obtain rfl : r = e.nr.toNat := Eq.trans hr (toInt_of_live (lookup_some hlook).2.1)
  refine ⟨h'.curDir_eq ▸ hrun,?_⟩
  have hview : inodeView u = w.inode := congrArg Volume.inode h'.valid.stands.volume_eq
  rw [hview,htype]
  exact hfile

theorem not_namesFile_curDir (h : Ready s c (volume s) E) : ¬NamesFile s name s.curDir :=
  fun hn => hn.2 (h.curDir_eq ▸ h.curDir)

/-- A file that is written keeps its name. -/
theorem cmdWrite_names (hs : Sound s) (h : Ready s c v E) (hf : NamesFile s name i)
    (os buf : CString) : Wlp (cmdWrite [name,os,buf]) s (fun _ t => NamesFile t name i) := by
  obtain rfl := h.valid.stands.volume_eq
  intro r t hrun
  obtain ⟨c',w,E',h',-,hcur,-,-⟩ := cmdWrite_spec h _ r t hrun
  obtain rfl := h'.valid.stands.volume_eq
  refine NamesFile.untouched h h' hcur ((cmdWrite_leaves hs _ r t hrun).others _ ?_) ?_ hf
  · rw [← h.curDir_eq]
    rintro ⟨_,_,_,-,hn⟩
    exact not_namesFile_curDir h hn
  · rcases cmdWrite_stored h hf os buf r t hrun with ⟨-,hvol⟩ | ⟨-,o,w,-,hvol,hst⟩
    · rw [hvol]
    · rw [hvol]
      exact hst.written.iType

end Writing

/-! ## The list of writes -/

/-- Bytes that were written at an offset. -/
structure Write where
  offset : ℕ
  buf : List Byte

/-- The number of the block that is written. -/
def Write.nr (x : Write) : ℕ := (blockNr x.offset).toNat

/-- The slot is filled by the write. -/
def Write.Fills (x : Write) (l : Slot) : Prop :=
  l = slotOf x.nr ∨ (l = .indirect ∧ nrDirectBlocks ≤ x.nr)

/-- The number of the block is that of a block of a file, and the bytes lie in this block. -/
structure Write.Accepted (x : Write) : Prop where
  lt : x.offset < 2^63
  nonneg : 0 ≤ blockNr x.offset
  nr_lt : x.nr < nrLogical
  fit : x.offset % blockSize + x.buf.length ≤ blockSize

/-- The end of the last byte. -/
def extent : List Write → ℕ
  | [] => 0
  | x::ws => if x.buf = [] then extent ws else max (extent ws) (x.offset + x.buf.length)

/-- Zeros that are overwritten, the last write first in the list. -/
def written : List Write → Region
  | [] => fun _ => 0
  | x::ws => copyIn (written ws) (x.nr*blockSize + x.offset % blockSize) x.buf

/-- The size of a file that is not empty is the end of a write. -/
theorem extent_cases (ws : List Write) : extent ws = 0 ∨
    ∃ x ∈ ws, x.buf ≠ [] ∧ extent ws = x.offset + x.buf.length := by
  induction ws with
  | nil => exact .inl rfl
  | cons x ws ih =>
    rw [extent]
    split
    · exact ih.imp_right fun ⟨y,hy,h⟩ => ⟨y,.tail _ hy,h⟩
    · rename_i hb
      rcases max_choice (extent ws) (x.offset + x.buf.length) with h | h
      · rw [h]
        exact ih.imp_right fun ⟨y,hy,h⟩ => ⟨y,.tail _ hy,h⟩
      · exact .inr ⟨x,.head _,hb,h⟩

theorem le_extent {ws : List Write} {x : Write} (hx : x ∈ ws) (hb : x.buf ≠ []) :
    x.offset + x.buf.length ≤ extent ws := by
  induction ws with
  | nil => cases hx
  | cons y ws ih =>
    rw [extent]
    rcases List.mem_cons.mp hx with rfl | hx
    · rw [if_neg hb]
      exact le_max_right _ _
    · split
      · exact ih hx
      · exact (ih hx).trans (le_max_left _ _)

/-- The file `i` is what the writes have made of an empty file. -/
structure Recorded (v : Volume) (i : ℕ) (ws : List Write) : Prop where
  iType : (v.inode i).iType = InodeType.file.code
  marked : Marked v i
  size : (v.inode i).iSize.toInt = extent ws
  slots : ∀ l, ref v i l ≠ 0 ↔ ∃ x ∈ ws, x.Fills l
  contents : contents v i = written ws
  accepted : ∀ x ∈ ws, x.Accepted

section Records

variable {v w : Volume} {i : ℕ} {ws : List Write}

theorem Recorded.congr (h : Recorded v i ws) (hu : Untouched i v w) : Recorded w i ws where
  iType := by
    rw [hu.inode]
    exact h.iType
  marked := by
    rw [Marked,hu.marked]
    exact h.marked
  size := by
    rw [hu.inode]
    exact h.size
  slots := by
    rw [hu.ref]
    exact h.slots
  contents := by
    rw [hu.contents]
    exact h.contents
  accepted := h.accepted

theorem Recorded.empty (hself : v.inode i = { Dinode.zero with iType := InodeType.file.code })
    (hm : Marked v i) : Recorded v i [] := by
  have hr : ∀ l, ref v i l = 0 := by
    intro l
    cases l <;> simp [ref,hself,Dinode.zero]
  refine ⟨by rw [hself],hm,?_,?_,?_,?_⟩
  · rw [hself]
    rfl
  · simp [hr]
  · funext q
    rw [Dirents.contents,logical_of_ref_zero hr]
    rfl
  · simp

theorem Recorded.store {o : ℕ} {buf : List Byte} (h : Recorded v i ws) (hs : Stored i o buf v w)
    (ho : o < 2^63) : Recorded w i (⟨o,buf⟩::ws) := by
  have hw := hs.written
  have hfit := hw.offset_le
  have hn : toInt32 (o/blockSize : ℕ) = (blockNr o).toNat := by
    rw [← blockNr_natCast,Int.toNat_of_nonneg hs.nonneg]
  have hend := add_lt_of_toInt32 ho hn hfit
  refine ⟨hw.iType.trans h.iType,?_,?_,fun l => ?_,?_,?_⟩
  · rw [Marked,hw.frame.inodeUsed]
    exact h.marked
  · rw [toInt_iSize_of_written hw hend,h.size,extent]
    split
    · rfl
    · rw [Nat.cast_max]
  · rw [hs.fills.slots,h.slots,List.exists_mem_cons_iff]
    exact or_comm
  · rw [Written.contents_eq hw,h.contents]
    rfl
  · rintro x (_ | ⟨_,hx⟩)
    · exact ⟨ho,hs.nonneg,hw.block_lt,hfit⟩
    · exact h.accepted x hx

end Records

/-! ## The life of a file -/

/-- The file `i` has been made by `cmd_create`, and since then the writes `ws` to it have succeeded,
the last one first. The maps are those before the creation with the blocks that the parent directory
got, and every step that is not a write of the file sets them to what it leaves besides the file. -/
inductive Life (i : ℕ) : Maps → List Write → Testfs → Prop
  | born {s t : Testfs} {name : CString} {r : Reply} (hs : FsReachable s)
      (hrun : (cmdCreate [name]).run s = some (r,t)) (hr : 0 ≤ r.1) (hf : NamesFile t name i) :
      Life i (withParent (volume s) s.curDir (volume t)) [] t
  | wrote {maps : Maps} {ws : List Write} {s t : Testfs} {name os buf : CString} {r : Reply} {o : ℕ}
      (h : Life i maps ws s) (hf : NamesFile s name i) (ho : strToOffset os = some (o : ℤ))
      (hrun : (cmdWrite [name,os,buf]).run s = some (r,t)) (hr : 0 ≤ r.1) :
      Life i maps (⟨o,buf.1⟩::ws) t
  | failed {maps : Maps} {ws : List Write} {s t : Testfs} {name os buf : CString} {r : Reply}
      (h : Life i maps ws s) (hf : NamesFile s name i)
      (hrun : (cmdWrite [name,os,buf]).run s = some (r,t)) (hr : r.1 < 0) : Life i maps ws t
  | other {maps : Maps} {ws : List Write} {s t : Testfs} {a : FsSessions.Action}
      (h : Life i maps ws s) (hstep : fsStep s a = some t) (ha : ¬WritesTo s a i)
      (hm : Marked (volume t) i) : Life i (without (volume t) i) ws t

section Lives

variable {s t : Testfs} {i : ℕ} {maps : Maps} {ws : List Write} {name : CString}

theorem reachable_of_create {args : List CString} {r : Reply} (hs : FsReachable s)
    (hrun : (cmdCreate args).run s = some (r,t)) : FsReachable t := by
  have hstep : fsStep s (.command .create args) = some t := step_of_run hrun
  exact FsRun.step hs trivial hstep

theorem reachable_of_write {args : List CString} {r : Reply} (hs : FsReachable s)
    (hrun : (cmdWrite args).run s = some (r,t)) : FsReachable t := by
  have hstep : fsStep s (.command .write args) = some t := step_of_run hrun
  exact FsRun.step hs trivial hstep

theorem born_recorded (hs : FsReachable s) {r : Reply}
    (hrun : (cmdCreate [name]).run s = some (r,t)) (hr : 0 ≤ r.1) (hf : NamesFile t name i) :
    Recorded (volume t) i [] ∧
      without (volume t) i = withParent (volume s) s.curDir (volume t) := by
  obtain ⟨hsound,c,E,h⟩ := sound_of_run hs
  have hspec := (cmdCreateType_spec h .file name) r t hrun
  obtain ⟨-,hnew,j,w,hm,ht⟩ := hspec.resolve_left fun hc => absurd hc.1 (by omega)
  obtain rfl := ht.valid.stands.volume_eq
  obtain ⟨e,hlook,hnr,-⟩ := (namesFile_iff ht).mp hf
  have hlook' : lookup name (madeEntries E c.curDir name .file j c.curDir) = some e := hlook
  rw [lookup_made h.tree h.curDir hnew hm] at hlook'
  cases hlook'
  rw [toNat_ofNat_inode hm.lt] at hnr
  subst hnr
  have hmark : Marked (volume t) j := by
    rw [Marked,hm.inodeUsed,Function.update_self]
  refine ⟨Recorded.empty (hm.file (by decide)) hmark,?_⟩
  have hleaves := cmdCreateType_leaves hsound h.tree.unmarked .file [name] r t hrun
  rw [h.curDir_eq] at hleaves ⊢
  refine without_made h.valid ht.valid h.tree ht.tree hm (ne_of_made h.tree h.curDir hm)
    fun k hk hmarked => (hleaves.others k ?_).ref
  rintro (rfl | hunmarked)
  · exact hk rfl
  · exact hunmarked hmarked

/-- A write that succeeds adds itself to the list, and the maps stay. -/
theorem wrote_recorded (hs : FsReachable s) (h : Recorded (volume s) i ws)
    (hf : NamesFile s name i) {os buf : CString} {o : ℕ} (ho : strToOffset os = some (o : ℤ))
    {r : Reply} (hrun : (cmdWrite [name,os,buf]).run s = some (r,t)) (hr : 0 ≤ r.1) :
    Recorded (volume t) i (⟨o,buf.1⟩::ws) ∧ without (volume t) i = without (volume s) i := by
  obtain ⟨c,E,hready⟩ := ready_of_reachable hs
  obtain ⟨-,c',E',ht⟩ := sound_of_run (reachable_of_write hs hrun)
  have hspec := cmdWrite_stored hready hf os buf r t hrun
  obtain ⟨-,o',w,ho',hvol,hstored⟩ := hspec.resolve_left fun hc => absurd hc.1 (by omega)
  obtain rfl : o = o' := by
    rw [ho] at ho'
    exact_mod_cast Option.some.inj ho'
  have hlt : o < 2^63 := by exact_mod_cast lt_of_strToOffset ho
  have hrec := (h.store hstored hlt).congr (w := w.sync i) ⟨rfl,rfl,rfl,rfl⟩
  have hframe := hstored.written.frame
  refine ⟨hvol ▸ hrec,without_eq hready.valid ht.valid ?_ fun j hj => ?_⟩
  · rw [hvol]
    exact hframe.inodeUsed
  · rw [hvol]
    exact hframe.ref j hj

theorem failed_recorded (hs : FsReachable s) (hf : NamesFile s name i) {os buf : CString}
    {r : Reply} (hrun : (cmdWrite [name,os,buf]).run s = some (r,t)) (hr : r.1 < 0) :
    volume t = volume s := by
  obtain ⟨c,E,hready⟩ := ready_of_reachable hs
  have hspec := cmdWrite_stored hready hf os buf r t hrun
  exact (hspec.resolve_right fun hc => absurd hc.1 (by omega)).2

/-- At any time of its life a file is what the writes have made of it, and the maps are those
without the file. -/
theorem Life.recorded (h : Life i maps ws s) :
    FsReachable s ∧ Recorded (volume s) i ws ∧ without (volume s) i = maps := by
  induction h with
  | born hs hrun hr hf => exact ⟨reachable_of_create hs hrun,born_recorded hs hrun hr hf⟩
  | wrote _ hf ho hrun hr ih =>
    obtain ⟨hs,hrec,hmaps⟩ := ih
    obtain ⟨hrec',hmaps'⟩ := wrote_recorded hs hrec hf ho hrun hr
    exact ⟨reachable_of_write hs hrun,hrec',hmaps'.trans hmaps⟩
  | failed _ hf hrun hr ih =>
    obtain ⟨hs,hrec,hmaps⟩ := ih
    rw [failed_recorded hs hf hrun hr]
    exact ⟨reachable_of_write hs hrun,hrec,hmaps⟩
  | other _ hstep ha hm ih =>
    obtain ⟨hs,hrec,-⟩ := ih
    obtain ⟨hsound,c,E,hready⟩ := sound_of_run hs
    refine ⟨FsRun.step hs trivial hstep,hrec.congr ?_,rfl⟩
    refine (fsStep_leaves hready hsound hstep).others i ?_
    rintro (rfl | hu | hu | hw)
    · have hdir := hready.curDir
      rw [← hready.curDir_eq,Directory,hrec.iType] at hdir
      exact absurd hdir (by decide)
    · exact hu hrec.marked
    · exact hu hm
    · exact ha hw

end Lives

/-! ## Every file has a life -/

section Beginnings

variable {s t : Testfs} {c : Memory} {E : ℕ → List Entry} {i : ℕ}

/-- The inodes that are new after a command are directories, but for a file that `cmd_create` has
made. The current directory goes on to be one. -/
structure Adds (s : Testfs) (cmd : Command) (args : List CString) (r : Reply) (t : Testfs) :
    Prop where
  curDir : Directory (volume t) s.curDir
  added : ∀ i, ¬Marked (volume s) i → Marked (volume t) i → Directory (volume t) i ∨
    (cmd = .create ∧ ∃ name, args = [name] ∧ 0 ≤ r.1 ∧ NamesFile t name i)

theorem Adds.of_same {cmd : Command} {args : List CString} {r : Reply}
    (h : Ready s c (volume s) E) (hi : (volume t).inode = (volume s).inode)
    (hu : (volume t).inodeUsed = (volume s).inodeUsed) : Adds s cmd args r t where
  curDir := by
    rw [Directory,hi,h.curDir_eq]
    exact h.curDir
  added i hn hm := by
    rw [Marked,hu] at hm
    exact absurd hm hn

theorem Adds.of_leaves {J : Set ℕ} {cmd : Command} {args : List CString} {r : Reply}
    (h : Ready s c (volume s) E) (hl : Leaves J s t) (hcur : s.curDir ∉ J)
    (hJ : ∀ j ∈ J, Marked (volume s) j) : Adds s cmd args r t where
  curDir := by
    rw [Directory,(hl.others _ hcur).inode,h.curDir_eq]
    exact h.curDir
  added i hn hm := by
    rw [Marked,(hl.others i fun hc => hn (hJ i hc)).marked] at hm
    exact absurd hm hn

theorem cmdCreateType_adds (h : Ready s c (volume s) E) (type : InodeType) (name : CString)
    {cmd : Command} (hc : type ≠ .dir → cmd = .create) :
    Wlp (cmdCreateType type [name]) s (fun r t => Adds s cmd [name] r t) := by
  refine (cmdCreateType_spec h type name).mono ?_
  rintro r t (⟨-,w,hw,hs⟩ | ⟨hr,hnew,j,w,hm,ht⟩)
  · obtain rfl := hw.valid.stands.volume_eq
    exact Adds.of_same h hs.inode hs.inodeUsed
  · obtain rfl := ht.valid.stands.volume_eq
    refine ⟨h.curDir_eq ▸ hm.isDir.iType,fun i hn hmark => ?_⟩
    obtain rfl : i = j := by
      by_contra hij
      rw [Marked,hm.inodeUsed,Function.update_of_ne hij] at hmark
      exact hn hmark
    by_cases htype : type = .dir
    · exact .inl (hm.dir htype).iType
    · have hlook := lookup_made h.tree h.curDir hnew hm
      refine .inr ⟨hc htype,name,rfl,hr.ge,
        (namesFile_iff ht).mpr ⟨_,hlook,toNat_ofNat_inode hm.lt,?_⟩⟩
      rw [Directory,hm.file htype]
      cases type <;> first | exact absurd rfl htype | decide

theorem cmdRm_adds (h : Ready s c (volume s) E) (name : CString) {cmd : Command} :
    Wlp (cmdRm [name]) s (fun r t => Adds s cmd [name] r t) := by
  refine (cmdRm_spec h name).mono ?_
  rintro r t (⟨-,ht⟩ | ⟨-,j,w,-,hm,ht⟩)
  · have hvol := ht.valid.stands.volume_eq
    exact Adds.of_same h (by rw [hvol]) (by rw [hvol])
  · obtain rfl := ht.valid.stands.volume_eq
    refine ⟨h.curDir_eq ▸ hm.isDir.iType,fun i hn hmark => absurd ?_ hn⟩
    rw [Marked,hm.inodeUsed] at hmark
    by_cases hij : i = j
    · rw [hij,Function.update_self] at hmark
      cases hmark
    · rwa [Function.update_of_ne hij] at hmark

theorem func_adds (h : Ready s c (volume s) E) (hs : Sound s) (cmd : Command)
    (args : List CString) : Wlp (cmd.func args) s (fun r t => Adds s cmd args r t) := by
  have hread : ∀ {m : FsM Reply}, Touches ∅ m → Wlp m s (fun r t => Adds s cmd args r t) :=
    fun hm => (hm s hs).mono fun _ _ ht =>
      Adds.of_leaves h ht (Set.notMem_empty _) fun _ hj => hj.elim
  have hinval : Wlp (pure (fails .inval) : FsM Reply) s (fun r t => Adds s cmd args r t) :=
    hread (Touches.pure _)
  cases cmd with
  | cd => exact hread (touches_cmdCd args)
  | pwd => exact hread (touches_cmdPwd args)
  | ls => exact hread (touches_cmdLsInternal false args)
  | lsr => exact hread (touches_cmdLsInternal true args)
  | create =>
    rcases args with _ | ⟨name,_ | ⟨_,_⟩⟩
    · exact hinval
    · exact cmdCreateType_adds h .file name fun _ => rfl
    · exact hinval
  | stat => exact hread (touches_cmdStat args)
  | rm =>
    rcases args with _ | ⟨name,_ | ⟨_,_⟩⟩
    · exact hinval
    · exact cmdRm_adds h name
    · exact hinval
  | mkdir =>
    rcases args with _ | ⟨name,_ | ⟨_,_⟩⟩
    · exact hinval
    · exact cmdCreateType_adds h .dir name fun hc => absurd rfl hc
    · exact hinval
  | read => exact hread (touches_cmdRead args)
  | write =>
    refine (cmdWrite_leaves hs args).mono fun r t ht => Adds.of_leaves h ht ?_ ?_
    · rintro ⟨_,_,_,-,hn⟩
      exact not_namesFile_curDir h hn
    · rintro j ⟨name,_,_,-,hn⟩
      exact (marked_of_namesFile h hn).1
  | fsstat => exact hread (touches_cmdFsstat args)

theorem directory_of_rootEntries (h : Ready s c (volume s) rootEntries)
    (hm : Marked (volume s) i) : Directory (volume s) i := by
  by_cases h0 : i = 0
  · exact h0 ▸ h.tree.root
  · obtain ⟨d,n,e,he,-,hdot,hdotdot,hname,-⟩ := h.tree.exists_parent hm h0
    by_cases hd : d = 0
    · subst hd
      rw [rootEntries,Function.update_self] at he
      rcases List.mem_pair.mp he with rfl | rfl
      · exact absurd hname.symm hdot
      · exact absurd hname.symm hdotdot
    · rw [rootEntries,Function.update_of_ne hd] at he
      cases he

/-- A step goes on with the life of a file that it does not remove. -/
theorem Life.step {maps : Maps} {ws : List Write} (h : Life i maps ws s) {a : FsSessions.Action}
    (hstep : fsStep s a = some t) (hm : Marked (volume t) i) : ∃ maps ws, Life i maps ws t := by
  by_cases hw : WritesTo s a i
  · obtain ⟨name,os,buf,rfl,hn⟩ := hw
    obtain ⟨⟨r,u⟩,hrun,rfl⟩ := Option.map_eq_some_iff.mp hstep
    by_cases hr : r.1 < 0
    · exact ⟨_,_,h.failed hn hrun hr⟩
    · obtain ⟨-,c,E,hready⟩ := sound_of_run h.recorded.1
      have hspec := cmdWrite_stored hready hn os buf r u hrun
      obtain ⟨-,o,-,ho,-⟩ := hspec.resolve_left fun hc => hr hc.1
      exact ⟨_,_,h.wrote hn ho hrun (not_lt.mp hr)⟩
  · exact ⟨_,_,h.other hstep hw hm⟩

theorem directory_step (hs : Sound s) (h : Ready s c (volume s) E) {a : FsSessions.Action}
    (hstep : fsStep s a = some t) (hd : Directory (volume s) i) (hm : Marked (volume t) i) :
    Directory (volume t) i := by
  have hcur : Directory (volume t) s.curDir := by
    cases a with
    | command cmd args =>
      obtain ⟨⟨r,u⟩,hrun,rfl⟩ := Option.map_eq_some_iff.mp hstep
      exact (func_adds h hs cmd args r u hrun).curDir
    | restart =>
      obtain ⟨dev,ht⟩ := restart_ready h hstep
      rw [ht.valid.stands.volume_eq,h.curDir_eq]
      exact h.curDir
  by_cases hi : i = s.curDir
  · exact hi ▸ hcur
  · have hout : i ∉ Concerned s a t := by
      rintro (hc | hu | hu | ⟨name,os,buf,-,hn⟩)
      · exact hi hc
      · exact hu (h.tree.marked_of_directory hd)
      · exact hu hm
      · exact hn.2 hd
    rw [Directory,((fsStep_leaves h hs hstep).others i hout).inode]
    exact hd

/-- A file that is new after a step has been made by `cmd_create`. -/
theorem life_begins (hs : FsReachable s) {a : FsSessions.Action} (hstep : fsStep s a = some t)
    (hn : ¬Marked (volume s) i) (hm : Marked (volume t) i) (hf : ¬Directory (volume t) i) :
    ∃ maps ws, Life i maps ws t := by
  obtain ⟨hsound,c,E,h⟩ := sound_of_run hs
  cases a with
  | command cmd args =>
    obtain ⟨⟨r,u⟩,hrun,rfl⟩ := Option.map_eq_some_iff.mp hstep
    have hadded := (func_adds h hsound cmd args r u hrun).added i hn hm
    obtain ⟨rfl,name,rfl,hr,hname⟩ := hadded.resolve_left hf
    exact ⟨_,_,.born hs hrun hr hname⟩
  | restart =>
    obtain ⟨dev,ht⟩ := restart_ready h hstep
    rw [Marked,ht.valid.stands.volume_eq] at hm
    exact absurd hm hn

/-- Every file of a reachable file system has been made and written by commands. -/
theorem exists_life (hs : FsReachable s) (hm : Marked (volume s) i) (hf : ¬Directory (volume s) i) :
    ∃ maps ws, Life i maps ws s := by
  obtain ⟨n,dev,s₀,hmake,hmount,hreach⟩ := hs
  obtain ⟨-,hready⟩ := mktestfs_sound hmake hmount
  refine (hreach.invariant (P := fun s => FsReachable s ∧ ∀ i, Marked (volume s) i →
    ¬Directory (volume s) i → ∃ maps ws, Life i maps ws s) ⟨⟨n,dev,s₀,hmake,hmount,.init⟩,
      fun i hm hf => absurd (directory_of_rootEntries hready hm) hf⟩ ?_).2 i hm hf
  rintro s a t ⟨hs,ih⟩ - hstep
  refine ⟨FsRun.step hs trivial hstep,fun i hm hf => ?_⟩
  obtain ⟨hsound,c,E,h⟩ := sound_of_run hs
  by_cases hmark : Marked (volume s) i
  · have hfile : ¬Directory (volume s) i := fun hd => hf (directory_step hsound h hstep hd hm)
    obtain ⟨maps,ws,hlife⟩ := ih i hmark hfile
    exact hlife.step hstep hm
  · exact life_begins hs hstep hmark hm hf

end Beginnings

/-! ## A new file -/

def letter : CString := ⟨[98],by decide⟩

def nearText : CString := ⟨[52,48,57,54,48],by decide⟩

def farText : CString := ⟨[51,53,49,56,52,51,55,50,48,56,56,56,51,50],by decide⟩

theorem fileTestfs_life : ∃ i maps c E, Ready fileTestfs c (volume fileTestfs) E ∧
    OnlyFile i c (volume fileTestfs) E ∧ NamesFile fileTestfs fileName i ∧
    Life i maps [] fileTestfs := by
  obtain ⟨i,c,E,hrun,hready,hfile⟩ := fileTestfs_created
  have hf := (namesFile_onlyFile hready hfile).1
  exact ⟨i,_,c,E,hready,hfile,hf,.born freshTestfs_reachable hrun le_rfl hf⟩

end FileHistory
end OsLabs

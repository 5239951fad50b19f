import OsLabs.FsFrames
import OsLabs.FileHistory
import OsLabs.FileRemoval
import OsLabs.FsFreeing

/-!
# The extents of files

No file ends beyond its last block, and no inode has a block beyond its end, as long as every write
has at least one byte and an offset below `2^44`. Directories are written in no other way. An inode
of this kind can always be removed: the loops of `testfs_free_blocks` come to all of its blocks.
-/

namespace OsLabs
namespace FsExtents

open Bytes FsModel DirModel FsVolume FsAccounts FsRemoval Dirents DirMap DirOps FsCreation FsTree
open FsCommands FsReading FsWriting FsFreeing FsImage FsMaking FsSessions FsFiles FsFrames
open BlockNarrowing FileHistory FileRemoval

/-- The inode `i` has no block beyond its end. -/
structure Compact (v : Volume) (i : ℕ) : Prop where
  size : (v.inode i).iSize.toInt ≤ nrLogical*blockSize
  slots : ∀ l, ref v i l ≠ 0 → ((Slot.nr l*blockSize : ℕ) : ℤ) < (v.inode i).iSize.toInt

structure Dense (s : Testfs) : Prop extends Sound s where
  compact : ∀ i, Compact (volume s) i

/-- The program leaves no block beyond the end of an inode. -/
def Packs {α : Type} (m : FsM α) : Prop := ∀ s, Dense s → Wlp m s fun _ t => Dense t

section Rules

variable {α β : Type} {J : Set ℕ} {i : ℕ} {s t : Testfs} {v w : Volume} {c : Memory}

theorem Compact.untouched (h : Compact v i) (hu : Untouched i v w) : Compact w i := by
  obtain ⟨hsize,hslots⟩ := h
  refine ⟨?_,fun l hl => ?_⟩
  · rw [hu.inode]
    exact hsize
  · rw [hu.inode]
    rw [hu.ref] at hl
    exact hslots l hl

theorem compact_zero (hi : (v.inode i).iSize = 0) (hr : ∀ l, ref v i l = 0) : Compact v i := by
  refine ⟨?_,fun l hl => absurd (hr l) hl⟩
  rw [hi]
  decide

theorem Dense.leaves (h : Dense s) (hl : Leaves J s t) (hJ : ∀ j ∈ J, Compact (volume t) j) :
    Dense t := by
  refine ⟨hl.sound,fun j => ?_⟩
  by_cases hj : j ∈ J
  · exact hJ j hj
  · exact (h.compact j).untouched (hl.others j hj)

theorem Packs.of_touches {m : FsM α} (h : Touches ∅ m) : Packs m :=
  fun s hs => (h s hs.toSound).mono fun _ _ ht => hs.leaves ht fun _ hj => hj.elim

theorem Packs.of_keeps {m : FsM α} (h : Keeps m) : Packs m := Packs.of_touches (Touches.of_keeps h)

theorem Packs.pure (a : α) : Packs (pure a : FsM α) := Packs.of_keeps (Keeps.pure a)

theorem Packs.bind {m : FsM α} {f : α → FsM β} (hm : Packs m) (hf : ∀ a, Packs (f a)) :
    Packs (m >>= f) := by
  intro s hs
  rw [Wlp.bind_iff]
  exact (hm s hs).mono fun a t ht => hf a t ht

theorem Packs.ite {c : Prop} [Decidable c] {m n : FsM α} (hm : Packs m) (hn : Packs n) :
    Packs (if c then m else n) := by
  split
  · exact hm
  · exact hn

/-- All blocks are freed when the inode is removed. -/
theorem Compact.covered (h : Compact v i) (h0 : 0 ≤ (v.inode i).iSize.toInt) :
    0 ≤ eBlockNr (v.inode i).iSize.toInt ∧ Covered v i (eBlockNr (v.inode i).iSize.toInt) := by
  obtain ⟨hsize,hslots⟩ := h
  generalize (v.inode i).iSize.toInt = size at *
  lift size to ℕ using h0
  have hle : size ≤ nrLogical*blockSize := by exact_mod_cast hsize
  have hsum : (size : ℤ) + blockSize - 1 = ((size + (blockSize - 1) : ℕ) : ℤ) := by
    simp only [blockSize]
    omega
  have hnr : eBlockNr size = ((size + (blockSize - 1))/blockSize : ℕ) := by
    simp only [nrLogical,blockSize] at hle
    rw [eBlockNr,hsum,toInt64_natCast (by simp only [blockSize]; omega),(natCast_tdiv_blockSize _).1,
      toInt32_natCast (by simp only [blockSize]; omega)]
  rw [hnr]
  refine ⟨Int.natCast_nonneg _,fun l hl => ?_⟩
  have hlt : Slot.nr l*blockSize < size := by exact_mod_cast hslots l hl
  simp only [blockSize] at hlt ⊢
  omega

end Rules

/-! ## Writing -/

section Writing

variable {s : Testfs} {v w : Volume} {i o d : ℕ} {buf : List Byte}

/-- The block that is written lies below the new end. -/
theorem compact_of_stored (h : Compact v i) (hb : buf ≠ []) (ho : o < 2^44)
    (hst : Stored i o buf v w) : Compact w i := by
  have hnr := blockNr_of_lt ho
  obtain ⟨-,hw,hf⟩ := hst
  rw [hnr,Int.toNat_natCast] at hw hf
  have hlog := hw.block_lt
  have hfit := hw.offset_le
  have hpos := List.length_pos_iff.mpr hb
  have hend : o + buf.length ≤ nrLogical*blockSize := by
    simp only [nrLogical,blockSize] at *
    omega
  have hsize := toInt_iSize_of_written hw (by simp only [nrLogical,blockSize] at hend; omega)
  rw [if_neg hb] at hsize
  have hold := h.size
  have hblock : ∀ k, k ≤ o/blockSize → ((k*blockSize : ℕ) : ℤ) < (w.inode i).iSize.toInt := by
    intro k hk
    have hle : k*blockSize ≤ o := (Nat.le_div_iff_mul_le (by decide)).mp hk
    rw [hsize]
    omega
  refine ⟨?_,fun l hl => ?_⟩
  · rw [hsize]
    exact max_le hold (by exact_mod_cast hend)
  · rcases (hf.slots l).mp hl with hold | rfl | ⟨rfl,hge⟩
    · have := h.slots l hold
      omega
    · rw [nr_slotOf hlog]
      exact hblock _ le_rfl
    · exact hblock _ hge

/-- A pointer to an inode that is not in memory leads nowhere. -/
theorem testfsWriteData_absent (hi : s.inodes i = none) (start : ℤ) :
    Wlp (testfsWriteData i buf start) s fun _ t => t = s := by
  rw [testfsWriteData,Wlp.ite_iff]
  refine ⟨fun _ => Wlp.pure_iff.mpr rfl,fun _ => ?_⟩
  simp only [testfsAllocateBlock,testfsReadBlock,Wlp.bind_iff,Wlp.guard_iff,wlp_inodeOf,hi]
  rintro - - _ ⟨⟩

theorem testfsWriteData_dense (hs : Dense s) (hb : buf ≠ []) (ho : o < 2^44)
    (hdir : Directory (volume s) i → o ≤ nrLogical*blockSize) :
    Wlp (testfsWriteData i buf o) s fun _ t => Dense t := by
  intro r t hrun
  have hleaves := testfsWriteData_leaves hs.toSound buf (Int.natCast_nonneg o) (by omega)
    (fun hd => by exact_mod_cast hdir hd) r t hrun
  refine hs.leaves hleaves ?_
  rintro j rfl
  cases hi : s.inodes j with
  | none =>
    obtain rfl := testfsWriteData_absent hi o r t hrun
    exact hs.compact j
  | some inode =>
    obtain ⟨c,hv⟩ := hs.valid
    have hheld : Held (c.touch j) j := by
      show (c.count j).isSome = true
      rw [← hv.stands.memory.count_eq j,hi]
      rfl
    rcases testfsWriteData_stored (Set.mem_insert j _) (hv.touch j) hheld buf o r t hrun with
      ⟨-,ht⟩ | ⟨-,w,ht,hst⟩
    · rw [ht.stands.volume_eq]
      exact hs.compact j
    · rw [ht.stands.volume_eq]
      exact compact_of_stored (hs.compact j) hb ho hst

end Writing

/-! ## Inodes -/

section Inodes

variable {s : Testfs}

theorem packs_testfsRemoveInode (i : ℕ) : Packs (testfsRemoveInode i) := by
  intro s hs
  obtain ⟨c,hv⟩ := hs.valid
  refine ((testfsRemoveInode_leaves hs.toSound i).and
    (testfsRemoveInode_valid (Set.mem_insert i _) (hv.touch i))).mono ?_
  rintro _ t ⟨⟨hl,-⟩,w,ht,hr⟩
  refine hs.leaves hl ?_
  rintro j rfl
  rw [ht.stands.volume_eq]
  exact compact_zero (by rw [hr.self]; rfl) hr.ref_self

theorem testfsCreateInode_dense (hs : Dense s)
    (hfresh : ∀ j, ¬Marked (volume s) j → (volume s).inode j = Dinode.zero) (type : InodeType) :
    Wlp (testfsCreateInode type) s fun _ t => Dense t := by
  obtain ⟨c,hv⟩ := hs.valid
  refine ((testfsCreateInode_leaves hs.toSound hfresh type).and
    (testfsCreateInode_valid hv type)).mono ?_
  rintro r t ⟨⟨hl,-⟩,ht⟩
  refine hs.leaves hl fun j hj => ?_
  cases r with
  | none =>
    rw [ht.1.stands.volume_eq]
    exact hs.compact j
  | some i =>
    obtain ⟨w,hw,ho⟩ := ht
    have hzero : ∀ l, ref w j l = 0 := fun l => by
      rw [ho.ref]
      exact ref_zero (hfresh j hj) l
    rw [hw.stands.volume_eq]
    refine compact_zero ?_ hzero
    by_cases hji : j = i
    · subst hji
      rw [ho.self,hfresh j hj]
      rfl
    · rw [ho.inode j hji,hfresh j hj]
      rfl

end Inodes

/-! ## Directories -/

section Directories

variable {s : Testfs} {d : ℕ}

theorem writeInDir_dense (hs : Dense s) (hd : Directory (volume s) d) {buf : List Byte}
    (hb : buf ≠ []) {o : ℤ} (h0 : 0 ≤ o) (hle : o ≤ ((volume s).inode d).iSize.toInt) :
    Wlp (testfsWriteData d buf o) s fun _ t => Dense t := by
  have hlimit := hle.trans ((hs.tail d).dir hd)
  lift o to ℕ using h0
  have ho : o ≤ nrLogical*blockSize := by exact_mod_cast hlimit
  refine testfsWriteData_dense hs hb ?_ fun _ => ho
  simp only [nrLogical,blockSize] at ho
  omega

theorem direntBytes_ne_nil (len nr : BitVec 32) (name : List Byte) :
    direntBytes len nr name ≠ [] := by
  refine List.ne_nil_of_length_pos ?_
  rw [direntBytes,List.length_append,List.length_append,length_stored,length_stored]
  omega

theorem testfsWriteDirent_dense (hs : Dense s) (hd : Directory (volume s) d) {o : ℤ} (h0 : 0 ≤ o)
    (hle : o ≤ ((volume s).inode d).iSize.toInt) (name : CString) (len : ℤ) (i : ℕ) :
    Wlp (testfsWriteDirent d name len i (toInt32 o)) s fun _ t => Dense t := by
  have hlimit := (hs.tail d).dir hd
  have ho : toInt32 o = o := by
    lift o to ℕ using h0
    simp only [nrLogical,blockSize] at hlimit
    exact toInt32_natCast (by omega)
  rw [ho,testfsWriteDirent,Wlp.ite_iff]
  refine ⟨fun _ => Wlp.pure_iff.mpr hs,fun _ => ?_⟩
  rw [Wlp.bind_iff,Wlp.guard_iff]
  exact fun _ => writeInDir_dense hs hd (direntBytes_ne_nil _ _ _) h0 hle

theorem packs_testfsAddDirent (d : ℕ) (name : CString) (i : ℕ) :
    Packs (testfsAddDirent d name i) := by
  intro s hs
  obtain ⟨c,hv⟩ := hs.valid
  simp only [testfsAddDirent,Wlp.bind_iff]
  refine (assertDir_spec hv.stands d).mono ?_
  rintro _ t ⟨rfl,hdir⟩
  refine (scanDir_found hv.stands d _).mono ?_
  rintro ⟨r,o⟩ t1 ⟨rfl,h0,hfound⟩
  cases r with
  | some e =>
    simp only
    rw [Wlp.ite_iff]
    refine ⟨fun _ => Wlp.pure_iff.mpr hs,fun _ => ?_⟩
    exact testfsWriteDirent_dense hs hdir h0 (hfound (by simp)).2.le name _ i
  | none =>
    simp only [Wlp.bind_iff]
    refine (inodeOf_spec hv.stands d).mono ?_
    rintro inode t2 ⟨rfl,-,hi⟩
    rw [Wlp.guard_iff,hi]
    exact fun ho => testfsWriteDirent_dense hs hdir h0 ho.le name _ i

theorem packs_testfsRemoveDirent (d : ℕ) (name : CString) : Packs (testfsRemoveDirent d name) := by
  refine Packs.ite (Packs.pure _) ?_
  intro s hs
  obtain ⟨c,hv⟩ := hs.valid
  rw [Wlp.bind_iff]
  refine (scanDir_found hv.stands d _).mono ?_
  rintro ⟨r,o⟩ t ⟨rfl,h0,hfound⟩
  cases r with
  | none => exact Wlp.pure_iff.mpr hs
  | some e =>
    obtain ⟨hdir,hlt⟩ := hfound (by simp)
    have htouch := touches_testfsRemoveDirentAllowed e.dInodeNr.toNat
    simp only [Wlp.bind_iff]
    refine ((htouch t hs.toSound).and (Packs.of_touches htouch t hs)).mono ?_
    rintro ret t1 ⟨hl,h1⟩
    have hsame := (hl.others d (Set.notMem_empty d)).inode
    rw [Wlp.ite_iff]
    refine ⟨fun _ => Wlp.pure_iff.mpr h1,fun _ => ?_⟩
    rw [Wlp.bind_iff,Wlp.liftM_iff,Wlp.guard_iff]
    intro _
    rw [Wlp.bind_iff]
    refine (writeInDir_dense h1 (by rwa [Directory,hsame]) (direntBytes_ne_nil _ _ _) h0
      (hsame ▸ hlt.le)).mono fun ret' t2 h2 => ?_
    split
    · exact Wlp.pure_iff.mpr h2
    · exact Wlp.pure_iff.mpr h2

theorem packs_createContents (type : InodeType) (p i : ℕ) : Packs (createContents type p i) := by
  refine Packs.ite ?_ (Packs.pure _)
  refine (Packs.of_keeps (keeps_assertDir i)).bind fun _ => ?_
  refine (packs_testfsAddDirent i dot i).bind fun ret => Packs.ite (Packs.pure _) ?_
  refine (packs_testfsAddDirent i dotdot p).bind fun ret => Packs.ite ?_ (Packs.pure _)
  exact (packs_testfsRemoveDirent i dot).bind fun _ => Packs.pure _

/-- What `testfs_create_file_or_dir` does with a new inode. -/
theorem testfsCreateFileOrDir_dense (hs : Dense s)
    (hfresh : ∀ j, ¬Marked (volume s) j → (volume s).inode j = Dinode.zero) (d : ℕ)
    (type : InodeType) (name : CString) :
    Wlp (testfsCreateFileOrDir d type name) s fun _ t => Dense t := by
  rw [testfsCreateFileOrDir,testfsCreateFileOrDirWith,Wlp.bind_iff]
  refine (keeps_testfsDirNameToInodeNr d name s).mono ?_
  rintro r t rfl
  rw [Wlp.ite_iff]
  refine ⟨fun _ => Wlp.pure_iff.mpr hs,fun _ => ?_⟩
  rw [Wlp.bind_iff]
  refine (testfsCreateInode_dense hs hfresh type).mono ?_
  intro r1 t1 h1
  cases r1 with
  | none => exact Wlp.pure_iff.mpr h1
  | some i =>
    have hremove := packs_testfsRemoveInode i
    refine ((packs_createContents type d i).bind fun ret => Packs.ite ?_ ?_) t1 h1
    · exact hremove.bind fun _ => Packs.pure _
    refine (packs_testfsAddDirent d name i).bind fun ret => Packs.ite ?_ ?_
    · exact hremove.bind fun _ => Packs.pure _
    refine (Packs.of_touches (touches_testfsSyncInode d)).bind fun _ => ?_
    refine (Packs.of_touches (touches_testfsSyncInode i)).bind fun _ => ?_
    exact (Packs.of_touches (touches_testfsPutInode i)).bind fun _ => Packs.pure _

end Directories

/-! ## Commands -/

section Commands

variable {s t : Testfs} {c : Memory} {v : Volume} {E : ℕ → List Entry}

/-- If the step is a write, then it has at least one byte, and the number of its block is not
changed by the conversion to `int`. -/
def WritesNear : FsSessions.Action → Prop
  | .command .write [_,os,buf] => buf.1 ≠ [] ∧ ∀ o, strToOffset os = some o → o < 2^44
  | _ => True

theorem cmdCreateType_dense (hs : Dense s)
    (hfresh : ∀ j, ¬Marked (volume s) j → (volume s).inode j = Dinode.zero) (type : InodeType)
    (args : List CString) : Wlp (cmdCreateType type args) s fun _ t => Dense t := by
  refine wlp_unary (f := cmdCreateType type) rfl (fun _ _ _ => rfl) hs (fun name => ?_) args
  simp only [cmdCreateType,cmdCreateTypeWith,Wlp.bind_iff,Wlp.get_iff,monadLift_self]
  exact (testfsCreateFileOrDir_dense hs hfresh s.curDir type name).mono fun _ _ ht =>
    Wlp.pure_iff.mpr ht

theorem cmdRm_dense (hs : Dense s) (args : List CString) :
    Wlp (cmdRm args) s fun _ t => Dense t := by
  refine wlp_unary (f := cmdRm) rfl (fun _ _ _ => rfl) hs (fun name => ?_) args
  simp only [cmdRm,cmdRmWith,monadLift_self]
  refine ((Packs.of_keeps Keeps.get).bind fun u => ?_) s hs
  refine (packs_testfsRemoveDirent u.curDir name).bind fun ret => Packs.ite (Packs.pure _) ?_
  refine (Packs.of_touches (touches_testfsGetInode ret.toNat)).bind fun _ => ?_
  refine (packs_testfsRemoveInode ret.toNat).bind fun _ => ?_
  exact (Packs.of_touches (touches_testfsSyncInode u.curDir)).bind fun _ => Packs.pure _

theorem cmdWrite_dense (hs : Dense s) {args : List CString}
    (hnear : WritesNear (.command .write args)) : Wlp (cmdWrite args) s fun _ t => Dense t := by
  rw [cmdWrite,cmdWriteWith.eq_def]
  split
  · rename_i name os buf
    obtain ⟨hb,hlt⟩ := hnear
    cases ho : strToOffset os with
    | none => exact Wlp.pure_iff.mpr hs
    | some o =>
      simp only
      rw [Wlp.ite_iff]
      refine ⟨fun _ => Wlp.pure_iff.mpr hs,fun h0 => ?_⟩
      lift o to ℕ using not_lt.mp h0
      have ho44 : o < 2^44 := by exact_mod_cast hlt o ho
      simp only [Wlp.bind_iff,Wlp.get_iff,monadLift_self]
      refine ((testfsGetFileInode_leaves hs.toSound name).and
        (Packs.of_touches (touches_testfsGetFileInode s.curDir name) s hs)).mono ?_
      rintro r t ⟨⟨hl,hname⟩,ht⟩
      cases r with
      | error e => exact Wlp.pure_iff.mpr ht
      | ok i =>
        have hfile : ¬Directory (volume t) i := by
          rw [Directory,(hl.others i (Set.notMem_empty i)).inode]
          exact (hname i rfl).2
        simp only [Wlp.bind_iff]
        refine (testfsWriteData_dense ht hb ho44 fun hd => absurd hd hfile).mono fun _ t1 h1 => ?_
        refine (Packs.of_touches (touches_testfsSyncInode i) t1 h1).mono fun _ t2 h2 => ?_
        refine (Packs.of_touches (touches_testfsPutInode i) t2 h2).mono fun _ t3 h3 => ?_
        exact Wlp.pure_iff.mpr h3
  · exact Wlp.pure_iff.mpr hs

theorem func_dense (h : Ready s c v E) (hs : Dense s) (cmd : Command) (args : List CString)
    (hnear : WritesNear (.command cmd args)) : Wlp (cmd.func args) s fun _ t => Dense t := by
  have hfresh : ∀ j, ¬Marked (volume s) j → (volume s).inode j = Dinode.zero := by
    rw [h.valid.stands.volume_eq]
    exact h.tree.unmarked
  cases cmd with
  | cd => exact Packs.of_touches (touches_cmdCd args) s hs
  | pwd => exact Packs.of_touches (touches_cmdPwd args) s hs
  | ls => exact Packs.of_touches (touches_cmdLsInternal false args) s hs
  | lsr => exact Packs.of_touches (touches_cmdLsInternal true args) s hs
  | create => exact cmdCreateType_dense hs hfresh .file args
  | stat => exact Packs.of_touches (touches_cmdStat args) s hs
  | rm => exact cmdRm_dense hs args
  | mkdir => exact cmdCreateType_dense hs hfresh .dir args
  | read => exact Packs.of_touches (touches_cmdRead args) s hs
  | write => exact cmdWrite_dense hs hnear
  | fsstat => exact Packs.of_touches (touches_cmdFsstat args) s hs

theorem dense_step (h : Ready s c v E) (hs : Dense s) {a : FsSessions.Action}
    (hnear : WritesNear a) (hstep : fsStep s a = some t) : Dense t := by
  cases a with
  | command cmd args =>
    obtain ⟨⟨r,u⟩,hr,rfl⟩ := Option.map_eq_some_iff.mp hstep
    exact func_dense h hs cmd args hnear r u hr
  | restart =>
    obtain ⟨dev,ht⟩ := restart_ready h hstep
    obtain rfl := h.valid.stands.volume_eq
    exact hs.leaves (leaves_of_same (J := ∅) hs.toSound ht.valid) fun _ hj => hj.elim

end Commands

/-! ## Runs -/

section Runs

variable {s : Testfs}

theorem testfsMakeRootDir_dense (hs : Dense s)
    (hfresh : ∀ j, ¬Marked (volume s) j → (volume s).inode j = Dinode.zero) :
    Wlp testfsMakeRootDir s fun _ t => Dense t := by
  rw [testfsMakeRootDir,Wlp.bind_iff]
  refine (testfsCreateInode_dense hs hfresh .dir).mono fun r t ht => ?_
  cases r with
  | none => exact Wlp.pure_iff.mpr ht
  | some i =>
    refine ((packs_createContents .dir i i).bind fun ret => Packs.ite ?_ ?_) t ht
    · exact (packs_testfsRemoveInode i).bind fun _ => Packs.pure _
    · refine (Packs.of_touches (touches_testfsSyncInode i)).bind fun _ => ?_
      exact (Packs.of_touches (touches_testfsPutInode i)).bind fun _ => Packs.pure _

theorem dense_blank {m : ℕ} (hm : m ≤ nrBlocks) : Dense (loaded (makeDevice m)) := by
  refine ⟨sound_blank hm,fun i => ?_⟩
  rw [(valid_blank hm).stands.volume_eq]
  exact compact_zero rfl fun l => ref_zero rfl l

theorem mktestfs_dense {n : ℕ} {dev : Device} (hmake : mktestfs n = some dev)
    (hmount : mount dev = some s) : Dense s := by
  obtain ⟨hsound,-⟩ := mktestfs_sound hmake hmount
  obtain ⟨-,m,r,t,hm,hrun,hvol⟩ := mktestfs_root hmake hmount
  have hdense := testfsMakeRootDir_dense (dense_blank hm)
    (fun j _ => by rw [volume_makeDevice]; rfl) r t hrun
  exact ⟨hsound,fun i => hvol ▸ hdense.compact i⟩

end Runs

end FsExtents
end OsLabs

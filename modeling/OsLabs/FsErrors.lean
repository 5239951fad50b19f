import Mathlib.Tactic
import OsLabs.Bytes
import OsLabs.Wlp
import OsLabs.FsModel
import OsLabs.DirModel
import OsLabs.FsVolume
import OsLabs.FsAccounts
import OsLabs.Dirents
import OsLabs.DirMap
import OsLabs.DirOps
import OsLabs.FsCreation
import OsLabs.FsTree
import OsLabs.FsCommands

/-!
# Error codes

Reading and writing a block fail with `-ENOSYS` behind the last block that a file can have, and
writing fails with `-ENOSPC` when the image has no block left. So does a creation, which may also
fail with `-ENOMEM` for a name whose length does not fit into an `int`.
-/

namespace OsLabs
namespace FsErrors

open Bytes FsModel DirModel FsVolume FsAccounts Dirents DirMap DirOps FsCreation FsTree FsCommands

section Blocks

variable {s : Testfs} {c : Memory} {v : Volume} {i : ℕ}

theorem testfsAllocBlock_error (h : Stands s c v) :
    Wlp testfsAllocBlock s fun r _ => r < 0 → r = Errno.nospc.ret := by
  simp only [testfsAllocBlock,Wlp.bind_iff,Wlp.get_iff,Wlp.ite_iff]
  refine ⟨fun _ => Wlp.pure_iff.mpr fun _ => rfl,fun _ => ?_⟩
  refine (testfsGetBlockFreemap_spec h).mono fun r t ht => ?_
  cases r with
  | none => exact Wlp.pure_iff.mpr fun _ => rfl
  | some k =>
    simp only [Wlp.bind_iff]
    refine Wlp.modify_iff.mpr (wlp_writeSuperBlock.mpr (Wlp.pure_iff.mpr fun hneg => ?_))
    rw [h.coherent.dataBlocksStart,toInt_dataBlock ht.1] at hneg
    omega

theorem testfsAllocBlockForInode_error (h : Stands s c v) (i : ℕ) :
    Wlp (testfsAllocBlockForInode i) s fun r _ => r < 0 → r = Errno.nospc.ret := by
  rw [testfsAllocBlockForInode,Wlp.bind_iff]
  refine (testfsAllocBlock_error h).mono fun r t hr => ?_
  rw [Wlp.ite_iff]
  refine ⟨fun _ => ?_,fun _ => Wlp.pure_iff.mpr hr⟩
  rw [Wlp.bind_iff]
  exact fun _ _ _ => Wlp.pure_iff.mpr hr

theorem allocateEntry_error (h : Stands s c v) (i n : ℕ) (indirect : Region) (flag : Bool)
    (block : Region) :
    Wlp (allocateEntry i n indirect flag block) s fun r _ => r.1 < 0 → r.1 = Errno.nospc.ret := by
  simp only [allocateEntry,Wlp.bind_iff,Wlp.guard_iff]
  intro _
  refine (testfsAllocBlockForInode_error h i).mono fun r t hr _ _ _ => Wlp.ite_iff.mpr ?_
  refine ⟨fun _ => ?_,fun _ => ?_⟩
  · rw [Wlp.bind_iff]
    exact fun _ _ _ => Wlp.pure_iff.mpr hr
  · rw [Wlp.ite_iff]
    refine ⟨fun _ => ?_,fun _ => Wlp.pure_iff.mpr hr⟩
    simp only [Wlp.bind_iff]
    exact fun _ _ _ _ _ _ => Wlp.pure_iff.mpr hr

theorem testfsReadBlock_error (hs : Stands s c v) (h : Accounts v (ref v)) (i : ℕ) (n : ℤ) :
    Wlp (testfsReadBlock i n) s fun r _ =>
      r.1 < 0 → r.1 = Errno.nosys.ret ∧ nrLogical ≤ n.toNat := by
  by_cases hfar : nrLogical ≤ n.toNat
  · simp only [testfsReadBlock,Wlp.bind_iff,Wlp.guard_iff]
    intro _ _ _ _
    rw [if_neg (by simp only [nrLogical,nrDirectBlocks] at *; omega),
      if_pos (by simp only [nrLogical,nrDirectBlocks,nrIndirectBlocks] at *; omega)]
    exact Wlp.pure_iff.mpr fun _ => ⟨rfl,hfar⟩
  · refine (testfsReadBlock_spec hs h i n).mono ?_
    rintro r t ⟨-,-,⟨hge,-⟩ | ⟨-,hr,-⟩⟩ hneg
    · exact absurd hge hfar
    · omega

/-- A block is not written behind the last one of a file, or there is none left. -/
theorem testfsAllocateBlock_error (hm : i ∈ c.dirty) (hs : Stands s c v) (h : Accounts v (ref v))
    (n : ℤ) :
    Wlp (testfsAllocateBlock i n) s fun r _ => r.1 < 0 →
      (r.1 = Errno.nosys.ret ∧ nrLogical ≤ n.toNat) ∨
      (r.1 = Errno.nospc.ret ∧ n.toNat < nrLogical) := by
  simp only [testfsAllocateBlock,Wlp.bind_iff,Wlp.guard_iff]
  intro hn
  refine ((testfsReadBlock_error hs h i n).and (testfsReadBlock_spec hs h i n)).mono ?_
  rintro ⟨phy,block⟩ t ⟨herr,rfl,-,hread⟩
  rw [Wlp.ite_iff]
  refine ⟨fun _ => Wlp.pure_iff.mpr fun hneg => .inl (herr hneg),fun h0 => ?_⟩
  have hlt : n.toNat < nrLogical := by
    rcases hread with ⟨-,hneg⟩ | ⟨hlt,-⟩
    · exact absurd hneg (by simp only at h0 ⊢; omega)
    · exact hlt
  have hspc : ∀ {m : FsM (ℤ × Region)} {t : Testfs},
      Wlp m t (fun r _ => r.1 < 0 → r.1 = Errno.nospc.ret) → Wlp m t fun r _ => r.1 < 0 →
        (r.1 = Errno.nosys.ret ∧ nrLogical ≤ n.toNat) ∨
        (r.1 = Errno.nospc.ret ∧ n.toNat < nrLogical) :=
    fun hm => hm.mono fun _ _ hr hneg => .inr ⟨hr hneg,hlt⟩
  simp only [Wlp.bind_iff]
  refine (inodeOf_spec hs i).mono ?_
  rintro inode t' ⟨rfl,-,hv⟩
  rw [Wlp.ite_iff]
  refine ⟨fun _ => ?_,fun _ => ?_⟩
  · -- a direct block
    simp only [Wlp.bind_iff,Wlp.guard_iff]
    refine fun _ => (testfsAllocBlockForInode_error hs i).mono fun r t1 hr => hspc ?_
    rw [Wlp.ite_iff]
    refine ⟨fun _ => ?_,fun _ => Wlp.pure_iff.mpr hr⟩
    rw [Wlp.bind_iff]
    exact fun _ _ _ => Wlp.pure_iff.mpr hr
  · rw [if_neg (by simp only [nrLogical,nrDirectBlocks,nrIndirectBlocks] at *; omega),Wlp.ite_iff]
    refine ⟨fun _ => ?_,fun hi0 => ?_⟩
    · -- the indirect block comes first
      rw [Wlp.bind_iff]
      refine ((testfsAllocBlockForInode_error hs i).and
        (testfsAllocBlockForInode_spec hs hm)).mono ?_
      rintro r t1 ⟨hr,hspec⟩
      rw [Wlp.ite_iff]
      refine ⟨fun _ => hspc (Wlp.pure_iff.mpr hr),fun hpos => ?_⟩
      rcases hspec with ⟨hneg,-⟩ | ⟨k,-,-,-,-,hd,-,ht⟩
      · exact absurd hneg hpos
      · rw [Wlp.bind_iff]
        refine (modifyDinode_spec ht hd _).mono fun _ t2 h2 => ?_
        exact hspc (allocateEntry_error h2.1 _ _ _ _ _)
    · have hind : ref v i .indirect ≠ 0 := fun hz => hi0 (by rw [hv]; exact (indirect_eq_zero_iff i).mp hz)
      rw [Wlp.bind_iff,hv,h.toInt_indirect]
      refine (readBlocks_spec hs (by exact_mod_cast (h.range hind).1)).mono ?_
      rintro r t1 ⟨rfl,-⟩
      exact hspc (allocateEntry_error hs _ _ _ _ _)

/-- The errors of a write, with the block that it is for. -/
theorem testfsWriteData_error (hm : i ∈ c.dirty) (hs : Stands s c v) (h : Accounts v (ref v))
    (buf : List Byte) (start : ℤ) :
    Wlp (testfsWriteData i buf start) s fun r _ => r < 0 →
      (r = Errno.nosys.ret ∧ (blockSize < toSize (start.tmod blockSize + buf.length) ∨
        nrLogical ≤ (toInt32 (start.tdiv blockSize)).toNat)) ∨
      (r = Errno.nospc.ret ∧ (toInt32 (start.tdiv blockSize)).toNat < nrLogical) := by
  simp only [testfsWriteData]
  rw [Wlp.ite_iff]
  refine ⟨fun hbig => Wlp.pure_iff.mpr fun _ => .inl ⟨rfl,.inl hbig⟩,fun _ => ?_⟩
  rw [Wlp.bind_iff]
  refine (testfsAllocateBlock_error hm hs h _).mono fun r t hr => ?_
  rw [Wlp.ite_iff]
  refine ⟨fun _ => Wlp.pure_iff.mpr fun hneg => (hr hneg).imp_left fun hfar => ⟨hfar.1,.inr hfar.2⟩,
    fun _ => ?_⟩
  simp only [Wlp.bind_iff]
  exact fun _ _ _ _ _ _ _ _ _ => Wlp.pure_iff.mpr fun hneg => by omega

theorem testfsReadData_error (hs : Stands s c v) (h : Accounts v (ref v)) (i : ℕ) (start : ℤ)
    (size : ℕ) : Wlp (testfsReadData i start size) s fun r _ => r.1 < 0 → r.1 = Errno.nosys.ret := by
  rw [testfsReadData,Wlp.bind_iff]
  refine (inodeOf_spec hs i).mono ?_
  rintro inode t ⟨rfl,-,-⟩
  simp only
  rw [Wlp.ite_iff]
  refine ⟨fun _ => Wlp.pure_iff.mpr fun _ => rfl,fun _ => ?_⟩
  rw [Wlp.bind_iff]
  refine (testfsReadBlock_error hs h i _).mono fun r t1 hr => ?_
  rw [Wlp.ite_iff]
  refine ⟨fun _ => Wlp.pure_iff.mpr fun hneg => (hr hneg).1,fun _ => ?_⟩
  rw [Wlp.bind_iff]
  exact fun _ _ _ => Wlp.pure_iff.mpr fun hneg => absurd hneg (not_lt.mpr (Int.natCast_nonneg _))

end Blocks

/-! ## Creating -/

/-- Why a new name finds no room: there is no inode or block left, its entry would go over the end
of a block or of the directory, or its length does not fit. -/
inductive NoRoom (name : CString) : Errno → Prop
  | full : NoRoom name .nospc
  | crossing : NoRoom name .nosys
  | long (h : 2^31 ≤ name.1.length+1) : NoRoom name .nomem

/-- A negative result is one of these errors. -/
def Lacks (name : CString) (r : ℤ) : Prop := r < 0 → ∃ e, NoRoom name e ∧ r = e.ret

section Creation

variable {s : Testfs} {c : Memory} {v : Volume} {i d : ℕ} {es : List Entry} {name : CString}

theorem testfsWriteDirent_lacks (hm : d ∈ c.dirty) (h : Valid s c v) (nr : ℕ) (o : ℤ) :
    Wlp (testfsWriteDirent d name (toInt32 (name.1.length + 1)) nr o) s fun r _ => Lacks name r := by
  refine testfsWriteDirent_spec (fun hlong _ => ⟨_,.long hlong,rfl⟩) fun _ => ?_
  refine (testfsWriteData_error hm h.stands h.accounts _ o).mono fun r _ hr hneg => ?_
  rcases hr hneg with ⟨rfl,-⟩ | ⟨rfl,-⟩
  · exact ⟨_,.crossing,rfl⟩
  · exact ⟨_,.full,rfl⟩

theorem testfsAddDirent_lacks (hm : d ∈ c.dirty) (h : Valid s c v) (hd : IsDir v d es)
    (hnew : lookup name es = none) (nr : ℕ) :
    Wlp (testfsAddDirent d name nr) s fun r _ => Lacks name r := by
  simp only [testfsAddDirent,Wlp.bind_iff]
  refine (assertDir_spec h.stands d).mono ?_
  rintro _ t ⟨rfl,-⟩
  refine (scanDir_spec h.stands h.accounts hd (stopsAdd_toDirent name _)).mono ?_
  rintro r t1 ⟨rfl,rfl⟩
  cases hf : firstEntry (stopsAt name (toInt32 (name.1.length + 1))) es 0 with
  | mk f k =>
  cases f with
  | some x =>
    obtain ⟨pre,post,rfl,hx,-,-⟩ := firstEntry_some hf
    have hxd : x.live = false := by
      by_contra hlive
      have hl : x.live = true := by simpa using hlive
      rw [stopsAt,if_pos hl,decide_eq_true_eq] at hx
      exact lookup_eq_none_iff.mp hnew x (by simp) hl hx
    simp only [Option.map_some]
    rw [Entry.live_toDirent,if_neg (by simp [hxd])]
    exact testfsWriteDirent_lacks hm h nr _
  | none =>
    simp only [Option.map_none,Wlp.bind_iff]
    refine (inodeOf_spec h.stands d).mono ?_
    rintro inode t2 ⟨rfl,-,-⟩
    rw [Wlp.guard_iff]
    exact fun _ => testfsWriteDirent_lacks hm h nr _

/-- A short name lacks only what any name may lack. -/
theorem Lacks.of_short {n : CString} {r : ℤ} (h : Lacks n r) (hn : n.1.length+1 < 2^31)
    (name : CString) : Lacks name r := by
  intro hneg
  obtain ⟨e,he,rfl⟩ := h hneg
  cases he with
  | full => exact ⟨_,.full,rfl⟩
  | crossing => exact ⟨_,.crossing,rfl⟩
  | long hlong => omega

theorem testfsCreateEmptyDir_lacks (hm : i ∈ c.dirty) (h : Valid s c v) (hz : IsDir v i []) (p : ℕ)
    (name : CString) : Wlp (testfsCreateEmptyDir p i) s fun r _ => Lacks name r := by
  rw [testfsCreateEmptyDir,testfsCreateEmptyDirWith,Wlp.bind_iff]
  refine (assertDir_spec h.stands i).mono ?_
  rintro _ t ⟨rfl,-⟩
  rw [Wlp.bind_iff]
  refine ((testfsAddDirent_lacks hm h hz rfl i).and (testfsAddDirent_spec hm h hz rfl i)).mono ?_
  rintro r t1 ⟨hr,hspec⟩
  rw [Wlp.ite_iff]
  refine ⟨fun _ => Wlp.pure_iff.mpr (hr.of_short (by decide) name),fun hpos => ?_⟩
  rcases hspec with ⟨hneg,-⟩ | ⟨w,-,hw,hrw⟩
  · exact absurd hneg hpos
  · rw [Wlp.bind_iff]
    refine (testfsAddDirent_lacks hm hw hrw.isDir (lookup_dotdot_of_dot _) p).mono fun r t2 hr => ?_
    rw [Wlp.ite_iff]
    refine ⟨fun _ => ?_,fun _ => Wlp.pure_iff.mpr fun hneg => absurd hneg (lt_irrefl 0)⟩
    rw [Wlp.bind_iff]
    exact fun _ _ _ => Wlp.pure_iff.mpr (hr.of_short (by decide) name)

theorem createContents_lacks (hm : i ∈ c.dirty) (h : Valid s c v) (type : InodeType)
    (hz : type = .dir → IsDir v i []) (p : ℕ) (name : CString) :
    Wlp (createContents type p i) s fun r _ => Lacks name r := by
  rw [createContents,createContentsWith,Wlp.ite_iff]
  exact ⟨fun hdir => testfsCreateEmptyDir_lacks hm h (hz hdir) p name,
    fun _ => Wlp.pure_iff.mpr fun hneg => absurd hneg (lt_irrefl 0)⟩

/-- A creation of a name that is new fails for want of room only. -/
theorem testfsCreateFileOrDir_lacks (hm : d ∈ c.dirty) (h : Valid s c v) (hd : IsDir v d es)
    (hused : v.inodeUsed d = true) (hfresh : ∀ i, v.inodeUsed i = false → v.inode i = Dinode.zero)
    (hnew : lookup name es = none) (type : InodeType) :
    Wlp (testfsCreateFileOrDir d type name) s fun r _ => Lacks name r := by
  rw [testfsCreateFileOrDir,testfsCreateFileOrDirWith,Wlp.bind_iff]
  refine (testfsDirNameToInodeNr_spec h.stands h.accounts hd name).mono ?_
  rw [hnew]
  rintro r t ⟨rfl,rfl⟩
  rw [if_neg (by decide),Wlp.bind_iff]
  refine (testfsCreateInode_valid h type).mono fun r1 t1 h1 => ?_
  cases r1 with
  | none => exact Wlp.pure_iff.mpr fun _ => ⟨_,.full,rfl⟩
  | some i =>
    obtain ⟨v1,hv1,ho⟩ := h1
    have hdi : d ≠ i := by
      rintro rfl
      rw [ho.unused] at hused
      cases hused
    have hmi : i ∈ ((c.touch i).hold i).dirty := Set.mem_insert i _
    have hz : type = .dir → IsDir v1 i [] := fun hdir => by
      have hself := ho.self
      rw [hfresh i ho.unused,hdir] at hself
      exact isDir_nil hself
    -- the result is kept while the inode is removed again
    have hremove : ∀ {r : ℤ} (t : Testfs), Lacks name r →
        Wlp (testfsRemoveInode i >>= fun _ => pure r) t fun r _ => Lacks name r := by
      intro r t hr
      rw [Wlp.bind_iff]
      exact fun _ _ _ => Wlp.pure_iff.mpr hr
    simp only [Wlp.bind_iff]
    refine ((createContents_lacks hmi hv1 type hz d name).and
      (createContents_spec hmi hv1 type hz d)).mono ?_
    rintro r2 t2 ⟨hr2,hspec⟩
    rw [Wlp.ite_iff]
    refine ⟨fun _ => hremove t2 hr2,fun hpos => ?_⟩
    rcases hspec with ⟨hneg,-⟩ | ⟨-,w,hw,hf,-⟩
    · exact absurd hneg hpos
    have hdw : IsDir w d es := by
      refine isDir_congr hd ?_ ?_
      · rw [hf.inode d hdi,ho.inode d hdi]
      · rw [hf.logical d hdi,ho.logical]
    rw [Wlp.bind_iff]
    refine (testfsAddDirent_lacks (Set.mem_insert_of_mem i hm) hw hdw hnew i).mono fun r3 t3 hr3 => ?_
    rw [Wlp.ite_iff]
    refine ⟨fun _ => hremove t3 hr3,fun _ => ?_⟩
    simp only [Wlp.bind_iff]
    exact fun _ _ _ _ _ _ _ _ _ => Wlp.pure_iff.mpr fun hneg => absurd hneg (lt_irrefl 0)

theorem cmdCreateType_lacks {E : ℕ → List Entry} (h : Ready s c v E)
    (hnew : lookup name (E c.curDir) = none) (type : InodeType) :
    Wlp (cmdCreateType type [name]) s fun r _ => Lacks name r.1 := by
  have ht := h.touch
  simp only [cmdCreateType,cmdCreateTypeWith,Wlp.bind_iff,Wlp.get_iff,monadLift_self]
  rw [h.curDir_eq]
  refine (testfsCreateFileOrDir_lacks (Set.mem_insert _ _) ht.valid h.isDir
    (h.tree.marked_of_directory h.curDir)
    (fun i hi => h.tree.unmarked i (by rw [Marked,hi]; simp)) hnew type).mono fun r t hr => ?_
  exact Wlp.pure_iff.mpr hr

end Creation

end FsErrors
end OsLabs

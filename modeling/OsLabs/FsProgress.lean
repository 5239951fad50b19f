import OsLabs.FsExtents
import OsLabs.CleanInodes
import OsLabs.InodeReferences
import OsLabs.LastBlock

/-!
# Sessions that go on

Every command returns, and the program can be ended and started again, after any session that keeps
away from the few steps that break something: no assertion fails, nothing is read or written outside
of a block, and every loop ends, whatever the arguments are and however full the file system is.
-/

namespace OsLabs
namespace FsProgress

open Bytes FsModel DirModel FsVolume FsAccounts FsRemoval Dirents DirMap DirOps FsCreation RootedTree
open FsTree FsCommands FsReading FsWriting FsFreeing FsImage FsMaking FsSessions FsFiles FsFrames
open FsWalks FsExtents BlockNarrowing FileHistory FileRemoval WriteEffects DirtyParents CommandPuts
open CleanInodes InodeReferences DirectoryTree LastBlock FsGrowth DirReplies Holdings

section Commands

variable {s t : Testfs} {c : Memory} {v : Volume} {E : ℕ → List Entry} {name : CString} {i d : ℕ}
  {es : List Entry}

/-! ## Looking up a name -/

theorem put_returns (h : Valid t c v) (hi : Held c i) (hclean : c.dirty = ∅) :
    Returns (testfsPutInode i) t :=
  testfsPutInode_returns h.stands hi fun hd => by
    have hmem := h.stands.memory.dirty_mem i hd
    rw [hclean] at hmem
    exact hmem

theorem lookup_total (h : Ready s c v E) (name : CString) :
    Total (testfsDirNameToInodeNr c.curDir name) s fun r t =>
      t = s ∧ (r < 0 ∨ ∃ i : ℕ, r = i ∧ Marked v i) := by
  refine ((testfsDirNameToInodeNr_total h.valid h.held h.isDir name).returns.total
    (lookup_spec h.valid h.tree h.curDir name)).mono ?_
  rintro r t ⟨rfl,hr⟩
  exact ⟨rfl,hr.imp_right fun ⟨e,_,he,hmark⟩ => ⟨_,he,hmark⟩⟩

/-- The inode that was found is got and looked at. -/
theorem got_returns {α : Type} (h : Ready s c v E) (hi : Marked v i) {k : Inode → FsM α}
    (hk : ∀ inode t, Valid t (c.hold i) v → inode.data = v.inode i → Returns (k inode) t) :
    Returns (do
      testfsGetInode i
      let inode ← inodeOf i
      k inode) s := by
  refine Returns.bind (testfsGetInode_returns h.valid.stands (h.tree.bound _ hi))
    ((testfsGetInode_valid h.valid i).mono fun _ t ht => ?_)
  refine Returns.bind (inodeOf_returns ht.stands (held_hold c i))
    ((inodeOf_spec ht.stands i).mono ?_)
  rintro inode t1 ⟨rfl,-,hv⟩
  exact hk inode t1 ht hv

theorem cmdCd_returns (h : Ready s c v E) (hclean : c.dirty = ∅) (args : List CString) :
    Returns (cmdCd args) s := by
  match args with
  | [] => exact Returns.pure _ s
  | [name] =>
    refine Returns.bind (Returns.get s) (Wlp.get_iff.mpr ?_)
    rw [h.curDir_eq]
    refine Returns.bind (lookup_total h name).returns ((lookup_total h name).wlp.mono ?_)
    rintro r t ⟨rfl,hr⟩
    refine Returns.ite (fun _ => Returns.pure _ t) fun hpos => ?_
    obtain ⟨i,rfl,hi⟩ := hr.resolve_left hpos
    rw [Int.toNat_natCast]
    refine got_returns h hi fun inode u hu _ => ?_
    refine Returns.ite (fun _ => ?_) fun _ => ?_
    · exact Returns.bind (put_returns hu (held_hold c i) hclean) fun _ w _ => Returns.pure _ w
    · refine Returns.bind (put_returns hu (Held.hold h.held i) hclean) fun _ w _ => ?_
      exact Returns.bind (Returns.modify _ w) fun _ w' _ => Returns.pure _ w'
  | _::_::_ => exact Returns.pure _ s

theorem cmdStat_returns (h : Ready s c v E) (hclean : c.dirty = ∅) (args : List CString) :
    Returns (cmdStat args) s := by
  match args with
  | [] => exact Returns.pure _ s
  | [name] =>
    refine Returns.bind (Returns.get s) (Wlp.get_iff.mpr ?_)
    rw [h.curDir_eq]
    refine Returns.bind (lookup_total h name).returns ((lookup_total h name).wlp.mono ?_)
    rintro r t ⟨rfl,hr⟩
    refine Returns.ite (fun _ => Returns.pure _ t) fun hpos => ?_
    obtain ⟨i,rfl,hi⟩ := hr.resolve_left hpos
    rw [Int.toNat_natCast]
    refine got_returns h hi fun inode u hu _ => ?_
    exact Returns.bind (put_returns hu (held_hold c i) hclean) fun _ w _ => Returns.pure _ w
  | _::_::_ => exact Returns.pure _ s

theorem cmdPwd_returns (h : Ready s c v E) (args : List CString) : Returns (cmdPwd args) s := by
  match args with
  | [] =>
    obtain ⟨p,hp⟩ := h.tree.isTree.exists_path (h.tree.marked_of_directory h.curDir)
    exact (cmdPwd_total h hp).returns
  | _::_ => exact Returns.pure _ s

theorem cmdLsInternal_returns (h : Ready s c v E) (hclean : c.dirty = ∅) (recursive : Bool)
    (args : List CString) : Returns (cmdLsInternal recursive args) s := by
  match args with
  | [] => exact Returns.pure _ s
  | [name] => exact cmdLs_returns h (noneDirty_of_ready h hclean _) recursive name
  | _::_::_ => exact Returns.pure _ s

/-! ## Reading and writing a file -/

theorem testfsGetFileInode_returns (h : Ready s c v E) (hclean : c.dirty = ∅) (name : CString) :
    Returns (testfsGetFileInode c.curDir name) s := by
  refine Returns.bind (lookup_total h name).returns ((lookup_total h name).wlp.mono ?_)
  rintro r t ⟨rfl,hr⟩
  refine Returns.ite (fun _ => Returns.pure _ t) fun hpos => ?_
  obtain ⟨i,rfl,hi⟩ := hr.resolve_left hpos
  rw [Int.toNat_natCast]
  refine got_returns h hi fun inode u hu _ => Returns.ite (fun _ => ?_) fun _ => Returns.pure _ u
  exact Returns.bind (put_returns hu (held_hold c i) hclean) fun _ w _ => Returns.pure _ w

/-- `testfs_read_data` with a block number that needs no conversion, after the check of the end. -/
theorem testfsReadData_bounded (h : Valid s c v) (hi : Held c i) {o size : ℕ} (ho : o < 2^44)
    (hsize : size + 1 < 2^63) (hin : ¬(v.inode i).iSize.toInt < toInt64 (o + toInt64 size)) :
    Returns (testfsReadData i o size) s := by
  have hnr : toInt32 (o/blockSize : ℕ) = (o/blockSize : ℕ) := by
    rw [← blockNr_natCast,blockNr_of_lt ho]
  refine Returns.bind (inodeOf_returns h.stands hi) ((inodeOf_spec h.stands i).mono ?_)
  rintro inode t ⟨rfl,-,hv⟩
  simp only [hv]
  rw [if_neg hin,(natCast_tdiv_blockSize o).1,(natCast_tdiv_blockSize o).2,hnr]
  refine Returns.ite (fun _ => Returns.pure _ t) fun hfit => ?_
  rw [← Nat.cast_add,toSize_natCast (by simp only [blockSize]; omega)] at hfit
  refine Returns.bind (testfsReadBlock_returns h hi (Int.natCast_nonneg _)) fun r u _ => ?_
  refine Returns.ite (fun _ => Returns.pure _ u) fun _ => ?_
  refine Returns.bind (Returns.guard ⟨Int.natCast_nonneg _,?_⟩ u) fun _ w _ => Returns.pure _ w
  rw [Int.toNat_natCast]
  exact not_lt.mp hfit

theorem readFile_returns (h : Valid s c v) (hi : Held c i) (hclean : c.dirty = ∅) {o size : ℕ}
    (ho : o < 2^44) (hsize : size < 2^64 - 1) : Returns (readFile i o size) s := by
  have hput : ∀ (r : Reply), Returns (do testfsPutInode i; return r : FsM Reply) s :=
    fun r => Returns.bind (put_returns h hi hclean) fun _ t _ => Returns.pure _ t
  refine Returns.bind (inodeOf_returns h.stands hi) ((inodeOf_spec h.stands i).mono ?_)
  rintro inode t ⟨rfl,-,hv⟩
  rw [hv]
  refine Returns.ite (fun _ => hput _) fun hin => Returns.ite (fun _ => hput _) fun hmem => ?_
  rw [← Nat.cast_one,← Nat.cast_add,toSize_natCast (by omega)] at hmem
  refine Returns.bind (testfsReadData_bounded h hi ho (not_le.mp hmem) hin)
    ((keeps_testfsReadData i o size t).mono ?_)
  rintro r u rfl
  refine Returns.bind (put_returns h hi hclean) fun _ w _ => ?_
  exact Returns.ite (fun _ => Returns.pure _ w) fun _ => Returns.pure _ w

/-- If the step is a read, then the number of its block is not changed by the conversion to `int`,
and the size is not the one whose successor is zero. -/
def ReadsNear : FsSessions.Action → Prop
  | .command .read [_,os,ss] => (∀ o, strToOffset os = some o → o < 2^44) ∧
      strToSize ss ≠ some (2^64 - 1)
  | _ => True

theorem cmdRead_returns (h : Ready s c v E) (hclean : c.dirty = ∅) {args : List CString}
    (hnear : ReadsNear (.command .read args)) : Returns (cmdRead args) s := by
  rw [cmdRead,cmdReadWith.eq_def]
  split
  · rename_i name os ss
    obtain ⟨ho,hs⟩ := hnear
    cases hos : strToOffset os with
    | none => exact Returns.pure _ s
    | some o =>
      refine Returns.ite (fun _ => Returns.pure _ s) fun h0 => ?_
      lift o to ℕ using not_lt.mp h0
      cases hss : strToSize ss with
      | none => exact Returns.pure _ s
      | some size =>
        have hlt := lt_of_strToSize hss
        have hne : size ≠ 2^64 - 1 := fun hc => hs (hc ▸ hss)
        refine Returns.bind (Returns.get s) (Wlp.get_iff.mpr ?_)
        rw [h.curDir_eq]
        refine Returns.bind (testfsGetFileInode_returns h hclean name)
          ((testfsGetFileInode_spec h name).mono fun r t hr => ?_)
        cases r with
        | error e => exact Returns.pure _ t
        | ok i =>
          exact readFile_returns hr.1 (held_hold c i) hclean (by exact_mod_cast ho o hos)
            (by omega)
  · exact Returns.pure _ s

theorem cmdWrite_returns (h : Ready s c v E) (hclean : c.dirty = ∅) {args : List CString}
    (hlong : ∀ x ∈ args, x.1.length < 2^30) (hnear : WritesNear (.command .write args)) :
    Returns (cmdWrite args) s := by
  rw [cmdWrite,cmdWriteWith.eq_def]
  split
  · rename_i name os buf
    have hbuf := hlong buf (by simp)
    cases hos : strToOffset os with
    | none => exact Returns.pure _ s
    | some o =>
      refine Returns.ite (fun _ => Returns.pure _ s) fun h0 => ?_
      lift o to ℕ using not_lt.mp h0
      have ho : o < 2^44 := by exact_mod_cast hnear.2 o hos
      refine Returns.bind (Returns.get s) (Wlp.get_iff.mpr ?_)
      rw [h.curDir_eq]
      refine Returns.bind (testfsGetFileInode_returns h hclean name)
        ((testfsGetFileInode_spec h name).mono fun r t hr => ?_)
      cases r with
      | error e => exact Returns.pure _ t
      | ok i =>
        have hnr : toInt32 (o/blockSize : ℕ) = (o/blockSize : ℕ) := by
          rw [← blockNr_natCast,blockNr_of_lt ho]
        have hheld := held_hold c i
        refine Returns.bind (testfsWriteData_returns (Set.mem_insert i _) (hr.1.touch i) hheld _ hnr
          (by omega)) ((testfsWriteData_valid (Set.mem_insert i _) (hr.1.touch i) buf.1 o).mono ?_)
        intro r t1 ht1
        obtain ⟨w,h1⟩ : ∃ w, Valid t1 ((c.hold i).touch i) w := by
          rcases ht1 with ⟨-,h1⟩ | ⟨w,-,h1,-⟩
          · exact ⟨v,h1⟩
          · exact ⟨w,h1⟩
        refine Returns.bind (testfsSyncInode_returns h1.stands hheld)
          ((testfsSyncInode_valid h1 i).mono fun _ t2 h2 => ?_)
        have hput : ¬Dirty t2 i := fun hd => (h2.stands.memory.dirty_mem i hd).2 rfl
        exact Returns.bind (testfsPutInode_returns h2.stands hheld hput) fun _ t3 _ =>
          Returns.pure _ t3
  · exact Returns.pure _ s

/-! ## Creating and removing -/

/-- An inode that has no block beyond its end can be removed. -/
theorem removeInode_returns (hs : Dense s) (hm : i ∈ c.dirty) (h : Valid s c v) (hi : Held c i)
    (hused : v.inodeUsed i = true) (hpos : 0 < v.usedInodes.toNat) :
    Returns (testfsRemoveInode i) s := by
  have hcompact := hs.compact i
  have htail := hs.tail i
  rw [h.stands.volume_eq] at hcompact htail
  obtain ⟨h0,hcov⟩ := hcompact.covered htail.nonneg
  exact (testfsRemoveInode_returns_iff (c := c.resize s.dev.size) hm hi (h.stands.resize le_rfl)
    h.accounts (h.backed _ _) h0 hused hpos).mpr hcov

/-- `testfs_create_inode`, also when no inode is free. -/
theorem createInode_returns (hs : Stands s c v) (hcount : v.usedInodes.toNat ≤ nrInodes)
    (type : InodeType) : Returns (testfsCreateInode type) s := by
  refine Returns.bind (testfsGetInodeFreemap_returns hs) ((testfsGetInodeFreemap_spec hs).mono ?_)
  intro r t ht
  cases r with
  | none => exact Returns.pure _ t
  | some i =>
    obtain ⟨hi,-,-,ht⟩ := ht
    refine Returns.ite (fun _ => ?_) fun hsmall => ?_
    · refine Returns.bind (testfsPutInodeFreemap_returns ht hi (Function.update_self ..) ?_)
        fun _ u _ => Returns.pure _ u
      show 0 < (v.usedInodes + 1).toNat
      rw [toNat_add_one _ (by simp only [nrInodes] at hcount; omega)]
      exact Nat.succ_pos _
    · have hlt : i < nrInodes := by
        simp only [nrInodes,nrInodeBlocks,inodesPerBlock] at hsmall ⊢
        omega
      refine Returns.bind (testfsGetInode_returns ht hlt) ((testfsGetInode_spec ht i).mono ?_)
      intro _ u hu
      exact Returns.bind (modifyDirty_returns hu (held_hold ..) _) fun _ w _ => Returns.pure _ w

theorem testfsCreateFileOrDir_returns (hs : Dense s) (hm : d ∈ c.dirty) (h : Valid s c v)
    (hheld : Held c d) (hd : IsDir v d es) (hused : v.inodeUsed d = true)
    (hfresh : ∀ i, v.inodeUsed i = false → v.inode i = Dinode.zero)
    (hcount : v.usedInodes.toNat ≤ nrInodes) (type : InodeType) (hlen : name.1.length < 2^30) :
    Returns (testfsCreateFileOrDir d type name) s := by
  refine Returns.bind (testfsDirNameToInodeNr_total h hheld hd name).returns
    ((testfsDirNameToInodeNr_total h hheld hd name).wlp.mono ?_)
  rintro r t ⟨rfl,hr⟩
  refine Returns.ite (fun _ => Returns.pure _ t) fun hneg => ?_
  have hnew : lookup name es = none := by
    cases hlook : lookup name es with
    | none => rfl
    | some e =>
      rw [hlook] at hr
      exact absurd (of_decide_eq_true (lookup_some hlook).2.1) (hr ▸ hneg)
  have hzero : ∀ j, ¬Marked (volume t) j → (volume t).inode j = Dinode.zero := by
    rw [h.stands.volume_eq]
    exact fun j hj => hfresh j (by simpa [Marked] using hj)
  refine Returns.bind (createInode_returns h.stands hcount type)
    (((testfsCreateInode_valid h type).and (testfsCreateInode_dense hs hzero type)).mono ?_)
  rintro r1 t1 ⟨h1,hs1⟩
  cases r1 with
  | none => exact Returns.pure _ t1
  | some i =>
    obtain ⟨v1,hv1,ho⟩ := h1
    have hz := hfresh i ho.unused
    have hdi : d ≠ i := by
      rintro rfl
      rw [ho.unused] at hused
      cases hused
    have hmi : i ∈ ((c.touch i).hold i).dirty := Set.mem_insert i _
    have hmd : d ∈ ((c.touch i).hold i).dirty := Set.mem_insert_of_mem i hm
    have hheldi := held_hold (c.touch i) i
    have hheldd : Held ((c.touch i).hold i) d := Held.hold (c := c.touch i) hheld i
    have hnil : type = .dir → IsDir v1 i [] := fun hdir => isDir_nil (by rw [ho.self,hz,hdir])
    have hv1used : v1.inodeUsed i = true := by rw [ho.inodeUsed,Function.update_self]
    have hv1pos : 0 < v1.usedInodes.toNat := by
      rw [ho.usedInodes,toNat_add_one _ (by simp only [nrInodes] at hcount; omega)]
      exact Nat.succ_pos _
    -- the new inode is removed wherever the creation stops
    have hundo : ∀ {u : Testfs} {w : Volume} (r : ℤ), Dense u → Valid u ((c.touch i).hold i) w →
        Frame i v1 w → Returns (do testfsRemoveInode i; return r : FsM ℤ) u := by
      intro u w r hsu hu hf
      refine Returns.bind (removeInode_returns hsu hmi hu hheldi ?_ ?_) fun _ x _ => Returns.pure _ x
      · rw [hf.inodeUsed]
        exact hv1used
      · rw [hf.usedInodes]
        exact hv1pos
    refine Returns.bind (createContents_returns hmi hv1 hheldi hnil d)
      (((createContents_spec hmi hv1 type hnil d).and (packs_createContents type d i t1 hs1)).mono ?_)
    rintro r2 t2 ⟨⟨hr2,-,-,w,hw,hf⟩ | ⟨rfl,w,hw,hf,-⟩,hs2⟩
    · rw [if_pos hr2]
      exact hundo r2 hs2 hw hf
    have hdw : IsDir w d es := by
      refine isDir_congr hd ?_ ?_
      · rw [hf.inode d hdi,ho.inode d hdi]
      · rw [hf.logical d hdi,ho.logical]
    rw [if_neg (by omega)]
    refine Returns.bind (testfsAddDirent_returns hmd hw hheldd hdw hlen i)
      (((testfsAddDirent_spec hmd hw hdw hnew i).and (packs_testfsAddDirent d name i t2 hs2)).mono ?_)
    rintro r3 t3 ⟨⟨hr3,h3,-⟩ | ⟨w3,hr3,h3,-⟩,hs3⟩
    · rw [if_pos hr3]
      exact hundo r3 hs3 h3 hf
    rw [if_neg (by omega)]
    refine Returns.bind (testfsSyncInode_returns h3.stands hheldd)
      ((testfsSyncInode_valid h3 d).mono fun _ t4 h4 => ?_)
    refine Returns.bind (testfsSyncInode_returns h4.stands hheldi)
      ((testfsSyncInode_valid h4 i).mono fun _ t5 h5 => ?_)
    have hclean : ¬Dirty t5 i := fun hx => (h5.stands.memory.dirty_mem i hx).2 rfl
    exact Returns.bind (testfsPutInode_returns h5.stands hheldi hclean) fun _ t6 _ =>
      Returns.pure _ t6

/-- No more inodes are in use than there are. -/
theorem usedInodes_le (h : Tree v E) : v.usedInodes.toNat ≤ nrInodes := by
  rw [h.count]
  exact held_marked_le v

theorem cmdCreateType_returns (h : Ready s c v E) (hs : Dense s) (type : InodeType)
    {args : List CString} (hlong : ∀ x ∈ args, x.1.length < 2^30) :
    Returns (cmdCreateType type args) s := by
  match args with
  | [] => exact Returns.pure _ s
  | [name] =>
    have ht := h.touch
    refine Returns.bind (Returns.get s) (Wlp.get_iff.mpr ?_)
    rw [h.curDir_eq]
    refine Returns.bind ?_ fun _ t _ => Returns.pure _ t
    exact testfsCreateFileOrDir_returns hs (Set.mem_insert ..) ht.valid ht.held h.isDir
      (h.tree.marked_of_directory h.curDir) (fresh_dirs h) (usedInodes_le h.tree) type
      (hlong name (by simp))
  | _::_::_ => exact Returns.pure _ s

theorem cmdRm_returns (h : Ready s c v E) (hs : Dense s) (args : List CString) :
    Returns (cmdRm args) s := by
  match args with
  | [] => exact Returns.pure _ s
  | [name] =>
    have ht := h.touch
    refine Returns.bind (Returns.get s) (Wlp.get_iff.mpr ?_)
    rw [h.curDir_eq]
    have hspec : Wlp (testfsRemoveDirent c.curDir name) s _ :=
      testfsRemoveDirent_spec (c := c.touch c.curDir)
        (Set.mem_insert _ _) ht.counted ht.valid h.isDir h.tree.isDir
    refine Returns.bind (testfsRemoveDirent_total h.touch (Set.mem_insert ..) name).returns
      ((hspec.and (packs_testfsRemoveDirent c.curDir name s hs)).mono ?_)
    rintro r t ⟨⟨hneg,-⟩ | ⟨w,e,hlook,hdot,hdotdot,-,rfl,hw,hrw⟩,hst⟩
    · rw [if_pos hneg]
      exact Returns.pure _ t
    rw [if_neg (by omega),Int.toNat_natCast]
    have hmark := marked_of_lookup h.tree hlook
    have hlt := h.tree.bound _ hmark
    have hframe := hrw.frame
    refine Returns.bind (testfsGetInode_returns hw.stands hlt)
      (((testfsGetInode_valid (hw.touch e.nr.toNat) e.nr.toNat).and
        (Packs.of_touches (touches_testfsGetInode e.nr.toNat) t hst)).mono ?_)
    rintro _ t1 ⟨h1,hs1⟩
    refine Returns.bind (removeInode_returns hs1 (Set.mem_insert _ _) h1 (held_hold ..) ?_ ?_)
      ((testfsRemoveInode_valid (Set.mem_insert _ _) h1).mono ?_)
    · rw [hframe.inodeUsed]
      exact hmark
    · rw [hframe.usedInodes,h.tree.count,Nat.pos_iff_ne_zero]
      intro hz
      rw [Marked,held_eq_zero.mp hz _ (Finset.mem_range.mpr hlt)] at hmark
      cases hmark
    rintro _ t2 ⟨w2,h2,-⟩
    have h2' := undo_memory ht.counted h2
    exact Returns.bind (testfsSyncInode_returns h2'.stands h.held) fun _ t3 _ => Returns.pure _ t3
  | _::_::_ => exact Returns.pure _ s

end Commands

/-! ## Sessions -/

/-- The step is none of those that break something: a creation for which the current directory needs
its eleventh block when one block is left, a listing of a file, a write without bytes, a block
number that `int` does not hold, the largest size, or an argument as long as a gigabyte. -/
structure Tame (s : Testfs) (a : FsSessions.Action) : Prop where
  clean : ¬LeavesDirty s a
  balanced : ¬ListsFile s a
  writes : WritesNear a
  reads : ReadsNear a
  short : ∀ cmd args, a = .command cmd args → ∀ x ∈ args, x.1.length < 2^30

/-- Between two commands, with nothing that could stop a later one. -/
def Healthy (s : Testfs) : Prop :=
  Dense s ∧ ∃ c v E, Ready s c v E ∧ c.dirty = ∅ ∧ c.count = single c.curDir

section Sessions

variable {s t : Testfs} {c : Memory} {v : Volume} {E : ℕ → List Entry} {a : FsSessions.Action}

theorem func_returns (h : Ready s c v E) (hs : Dense s) (hclean : c.dirty = ∅) {cmd : Command}
    {args : List CString} (hok : Tame s (.command cmd args)) : Returns (cmd.func args) s := by
  have hlong := hok.short cmd args rfl
  cases cmd with
  | cd => exact cmdCd_returns h hclean args
  | pwd => exact cmdPwd_returns h args
  | ls => exact cmdLsInternal_returns h hclean false args
  | lsr => exact cmdLsInternal_returns h hclean true args
  | create => exact cmdCreateType_returns h hs .file hlong
  | stat => exact cmdStat_returns h hclean args
  | rm => exact cmdRm_returns h hs args
  | mkdir => exact cmdCreateType_returns h hs .dir hlong
  | read => exact cmdRead_returns h hclean hok.reads
  | write => exact cmdWrite_returns h hclean hlong hok.writes
  | fsstat =>
    match args with
    | [] => exact Returns.bind (Returns.get s) fun _ t _ => Returns.pure _ t
    | _::_ => exact Returns.pure _ s

theorem Healthy.step_total (h : Healthy s) (hok : Tame s a) : ∃ t, fsStep s a = some t := by
  obtain ⟨hs,c,v,E,hr,hclean,hcount⟩ := h
  cases a with
  | command cmd args =>
    obtain ⟨r,t,hrun⟩ := func_returns hr hs hclean hok
    exact ⟨t,step_of_run hrun⟩
  | restart =>
    obtain ⟨t,-,ht,-⟩ := restart_total hr hclean hcount
    exact ⟨t,ht⟩

theorem Healthy.step (h : Healthy s) (hok : Tame s a) (hstep : fsStep s a = some t) : Healthy t := by
  obtain ⟨hs,c,v,E,hr,hclean,hcount⟩ := h
  obtain ⟨c1,w,E1,h1,hdirty⟩ := clean_step hr hclean hok.clean hstep
  obtain ⟨c2,w2,E2,h2,hsingle⟩ := single_step hr hcount hok.balanced hstep
  refine ⟨dense_step hr hs hok.writes hstep,c1,w,E1,h1,hdirty,?_⟩
  have hcur : c1.curDir = c2.curDir := h1.curDir_eq.symm.trans h2.curDir_eq
  rw [hcur,← hsingle]
  funext i
  rw [← h1.valid.stands.memory.count_eq i,h2.valid.stands.memory.count_eq i]

theorem healthy_of_run (h : FsRun Tame s) : Healthy s := by
  obtain ⟨n,dev,s₀,hmake,hmount,hreach⟩ := h
  obtain ⟨-,hready⟩ := mktestfs_sound hmake hmount
  exact hreach.invariant ⟨mktestfs_dense hmake hmount,_,_,_,hready,rfl,rfl⟩
    fun s a t hs hok hstep => hs.step hok hstep

/-- In a session that has kept away from the steps that break something, every further step of this
kind can be made: each command returns, and the program can be ended and started again. -/
theorem tame_sessions_go_on (h : FsRun Tame s) (hok : Tame s a) :
    ∃ t, fsStep s a = some t ∧ FsRun Tame t := by
  obtain ⟨t,ht⟩ := (healthy_of_run h).step_total hok
  exact ⟨t,ht,h.step hok ht⟩

end Sessions

/-- In a new file system the current directory is far from its eleventh block. -/
theorem tame_mkdir_fresh : Tame freshTestfs (.command .mkdir [fileName]) := by
  refine ⟨?_,fun hl => ?_,trivial,trivial,?_⟩
  · obtain ⟨dev,v,hr,-⟩ := freshTestfs_ready
    exact not_leavesDirty hr (show sizes (rootEntries 0) < _ by rw [sizes_rootEntries]; decide)
      .mkdir fileName
  · rcases hl.1 with hc | hc <;> cases hc
  · rintro cmd args ⟨⟩ x hx
    rw [List.mem_singleton.mp hx]
    decide

theorem freshTestfs_goes_on : ∃ t, fsStep freshTestfs (.command .mkdir [fileName]) = some t ∧
    FsRun Tame t :=
  tame_sessions_go_on (freshTestfs_run Tame) tame_mkdir_fresh

end FsProgress
end OsLabs

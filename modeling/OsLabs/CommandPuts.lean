import Mathlib.Tactic
import OsLabs.Bytes
import OsLabs.Wlp
import OsLabs.CheckedRun
import OsLabs.FsModel
import OsLabs.DirModel
import OsLabs.FsVolume
import OsLabs.FsCommands
import OsLabs.FsSessions

/-!
# Calls of testfs_put_inode

The commands with a program in the place of `testfs_put_inode` that reports a dirty inode. From
a state without dirty inodes none is reported.
-/

namespace OsLabs
namespace CommandPuts

open Bytes FsModel DirModel FsVolume FsCommands FsSessions

/-- `testfs_put_inode` with its assertion made visible: it throws the number of a dirty inode. -/
def checkedPut (i : ℕ) : ExceptT ℕ FsM Unit := do
  let inode ← inodeOf i
  if inode.dirty = true then throw i else testfsPutInode i

/-- No inode in memory is dirty. -/
def NoneDirty (s : Testfs) : Prop := ∀ i, ¬Dirty s i

section Checked

variable {s : Testfs} {i : ℕ}

/-- The error is thrown where the assertion fails. -/
theorem checkedPut_of_dirty (h : Dirty s i) : (checkedPut i).run.run s = some (.error i,s) := by
  obtain ⟨inode,hi,hd⟩ := h
  have hrun : (monadLift (inodeOf i) : ExceptT ℕ FsM Inode).run.run s = some (.ok inode,s) := by
    show ((s.inodes i).bind _).bind _ = _
    rw [hi]
    rfl
  rw [checkedPut,ExceptT.run_bind]
  refine Option.bind_eq_some_iff.mpr ⟨_,hrun,?_⟩
  show (if inode.dirty = true then _ else _ : ExceptT ℕ FsM Unit).run.run s = _
  rw [if_pos hd]
  rfl

/-- The dirty inodes after a change of one inode. -/
theorem dirty_update {o : Option Inode} {j : ℕ}
    (h : Dirty { s with inodes := Function.update s.inodes i o } j) :
    Dirty s j ∨ j = i ∧ ∃ inode, o = some inode ∧ inode.dirty = true := by
  obtain ⟨inode,hj,hd⟩ := h
  simp only [Function.update_apply] at hj
  split at hj
  · exact .inr ⟨‹_›,inode,hj,hd⟩
  · exact .inl ⟨inode,hj,hd⟩

theorem checkedPut_passes (h : ¬Dirty s i) :
    Passes (checkedPut i) s fun _ t => ∀ j, Dirty t j → Dirty s j := by
  refine Passes.bind (Passes.lift (wlp_inodeOf.mpr fun inode hi => ?_))
  refine Passes.ite (fun hd => absurd ⟨inode,hi,hd⟩ h) fun hd => Passes.lift ?_
  simp only [testfsPutInode,Wlp.bind_iff,wlp_inodeOf,Wlp.guard_iff,Wlp.ite_iff,Wlp.modify_iff,
    wlp_setInode]
  intro inode' hi' hd'
  refine ⟨fun _ j hj => (dirty_update hj).resolve_right ?_,
    fun _ j hj => (dirty_update hj).resolve_right ?_⟩
  · rintro ⟨-,x,hx,-⟩
    cases hx
  · rintro ⟨-,x,hx,hxd⟩
    cases hx
    exact Bool.false_ne_true (hd'.symm.trans hxd)

theorem testfsGetInode_noneDirty (h : NoneDirty s) (i : ℕ) :
    Wlp (testfsGetInode i) s fun _ t => NoneDirty t := by
  simp only [testfsGetInode,Wlp.bind_iff,Wlp.get_iff]
  cases hc : s.inodes i with
  | some inode =>
    simp only [wlp_setInode]
    intro j hj
    rcases dirty_update hj with hj | ⟨-,x,hx,hd⟩
    · exact h j hj
    · cases hx
      exact h i ⟨inode,hc,hd⟩
  | none =>
    simp only [Wlp.bind_iff,testfsReadInodeBlock,Wlp.guard_iff,Wlp.get_iff,wlp_readBlocks,
      wlp_setInode]
    intro _ _ j hj
    rcases dirty_update hj with hj | ⟨-,x,hx,hd⟩
    · exact h j hj
    · cases hx
      cases hd

theorem testfsSyncInode_clean (i : ℕ) (s : Testfs) :
    Wlp (testfsSyncInode i) s fun _ t => ¬Dirty t i := by
  simp only [testfsSyncInode,Wlp.bind_iff,wlp_inodeOf]
  intro inode hi
  rw [Wlp.ite_iff]
  constructor
  · rintro hd
    refine Wlp.pure_iff.mpr ?_
    rintro ⟨x,hx,hxd⟩
    obtain rfl : inode = x := Option.some.inj (hi.symm.trans hx)
    exact Bool.false_ne_true (hd.symm.trans hxd)
  · intro _
    simp only [Wlp.bind_iff,wlp_setInode]
    refine fun _ _ _ _ _ _ => ?_
    rintro ⟨x,hx,hxd⟩
    cases (Function.update_self ..).symm.trans hx
    cases hxd

/-- Reading an inode into memory and looking at it. -/
theorem getInode_passes {α : Type} {Q : α → Testfs → Prop} (h : NoneDirty s) (i : ℕ)
    {f : Inode → ExceptT ℕ FsM α} (hf : ∀ inode t, NoneDirty t → Passes (f inode) t Q) :
    Passes (do testfsGetInode i; let inode ← inodeOf i; f inode : ExceptT ℕ FsM α) s Q := by
  refine Passes.bind (Passes.lift ((testfsGetInode_noneDirty h i).mono fun _ t ht => ?_))
  exact Passes.bind (Passes.read (keeps_inodeOf i) fun inode => hf inode t ht)

/-- Putting an inode when none is dirty. -/
theorem put_passes {α : Type} {Q : α → Testfs → Prop} (h : NoneDirty s) (i : ℕ)
    {x : ExceptT ℕ FsM α} (hx : ∀ t, NoneDirty t → Passes x t Q) :
    Passes (do checkedPut i; x) s Q :=
  Passes.bind ((checkedPut_passes (h i)).mono fun _ t ht => hx t fun j hj => h j (ht j hj))

/-- An inode is put right after it was written to the device. -/
theorem syncPut_passes (i : ℕ) (s : Testfs) :
    Passes (do testfsSyncInode i; checkedPut i : ExceptT ℕ FsM Unit) s fun _ _ => True :=
  Passes.bind (Passes.lift ((testfsSyncInode_clean i s).mono fun _ _ ht =>
    (checkedPut_passes ht).mono fun _ _ _ => trivial))

theorem testfsRemoveInodeWith_passes (i : ℕ) (s : Testfs) :
    Passes (testfsRemoveInodeWith checkedPut i) s fun _ _ => True :=
  Passes.bind (Passes.any fun _ _ => Passes.bind (Passes.any fun _ _ => Passes.bind
    (Passes.any fun _ _ => Passes.bind (Passes.any fun _ _ => Passes.bind
      (Passes.any fun _ t => syncPut_passes i t)))))

theorem testfsRemoveDirentAllowedWith_passes (h : NoneDirty s) (i : ℕ) :
    Passes (testfsRemoveDirentAllowedWith checkedPut i) s fun _ _ => True := by
  refine getInode_passes h i fun inode t ht => Passes.ite (fun _ => ?_) fun _ => ?_
  · exact put_passes ht i fun u _ => Passes.pure trivial
  · refine Passes.bind (Passes.read (keeps_scanDir i isChild) fun r => ?_)
    refine put_passes ht i fun u _ => ?_
    cases r.1 with
    | none => exact Passes.pure trivial
    | some d => exact Passes.pure trivial

theorem testfsRemoveDirentWith_passes (h : NoneDirty s) (dir : ℕ) (name : CString) :
    Passes (testfsRemoveDirentWith checkedPut dir name) s fun _ _ => True := by
  refine Passes.ite (fun _ => Passes.pure trivial) fun _ => ?_
  refine Passes.bind (Passes.read (keeps_scanDir dir (isEntry name)) fun r => ?_)
  obtain ⟨d,o⟩ := r
  cases d with
  | none => exact Passes.pure trivial
  | some d =>
    refine Passes.bind ((testfsRemoveDirentAllowedWith_passes h _).mono fun ret t _ => ?_)
    refine Passes.ite (fun _ => Passes.pure trivial) fun _ => ?_
    refine Passes.bind (Passes.any fun _ _ => Passes.bind (Passes.any fun _ _ => ?_))
    exact Passes.ite (fun _ => Passes.pure trivial) fun _ => Passes.pure trivial

/-- The entry "." of a new directory is not removed again, so that its inode is not put here. -/
theorem testfsCreateEmptyDirWith_passes (p i : ℕ) (s : Testfs) :
    Passes (testfsCreateEmptyDirWith checkedPut p i) s fun _ _ => True := by
  refine Passes.bind (Passes.any fun _ _ => Passes.bind (Passes.any fun _ _ => ?_))
  refine Passes.ite (fun _ => Passes.pure trivial) fun _ => Passes.bind (Passes.any fun _ t => ?_)
  refine Passes.ite (fun _ => ?_) fun _ => Passes.pure trivial
  rw [testfsRemoveDirentWith,if_pos (.inl rfl)]
  exact Passes.bind (Passes.pure (Passes.pure trivial))

theorem createContentsWith_passes (type : InodeType) (p i : ℕ) (s : Testfs) :
    Passes (createContentsWith checkedPut type p i) s fun _ _ => True :=
  Passes.ite (fun _ => testfsCreateEmptyDirWith_passes p i s) fun _ => Passes.pure trivial

/-- The parent may be left dirty, but only the new inode is put, after it was stored. -/
theorem testfsCreateFileOrDirWith_passes (dir : ℕ) (type : InodeType) (name : CString)
    (s : Testfs) : Passes (testfsCreateFileOrDirWith checkedPut dir type name) s fun _ _ => True := by
  refine Passes.bind (Passes.any fun _ _ => Passes.ite (fun _ => Passes.pure trivial) fun _ => ?_)
  refine Passes.bind (Passes.any fun r t => ?_)
  cases r with
  | none => exact Passes.pure trivial
  | some i =>
    have hremove : ∀ (ret : ℤ) (t : Testfs), Passes (do
        testfsRemoveInodeWith checkedPut i
        return ret) t fun _ _ => True := fun ret t =>
      Passes.bind ((testfsRemoveInodeWith_passes i t).mono fun _ _ _ => Passes.pure trivial)
    refine Passes.bind ((createContentsWith_passes type dir i t).mono fun ret t1 _ => ?_)
    refine Passes.ite (fun _ => hremove ret t1) fun _ => Passes.bind (Passes.any fun ret t2 => ?_)
    refine Passes.ite (fun _ => hremove ret t2) fun _ => Passes.bind (Passes.any fun _ t3 => ?_)
    refine Passes.bind (Passes.lift ((testfsSyncInode_clean i t3).mono fun _ t4 h4 => ?_))
    exact Passes.bind ((checkedPut_passes h4).mono fun _ _ _ => Passes.pure trivial)

/-- Listing puts every inode it gets, and none is dirty. -/
theorem testfsLsWith_passes (recursive : Bool) (n i : ℕ) (o : ℤ) (h : NoneDirty s) :
    Passes (testfsLsWith checkedPut recursive n i o) s fun _ t => NoneDirty t := by
  induction n generalizing i o s with
  | zero => exact Passes.lift Wlp.of_failure
  | succ n ih =>
    rw [testfsLsWith]
    refine Passes.bind (Passes.read (keeps_testfsNextDirent i o) fun r => ?_)
    cases r with
    | none => exact Passes.pure h
    | some r =>
      obtain ⟨d,next⟩ := r
      refine Passes.ite (fun _ => ih i next h) fun _ => getInode_passes h _ fun inode t ht => ?_
      refine Passes.bind (Passes.read (Keeps.lift _) fun name => ?_)
      refine Passes.ite (fun _ => ?_) fun _ => ?_
      · refine Passes.bind ((ih d.dInodeNr.toNat 0 ht).mono fun below t1 h1 => ?_)
        refine put_passes h1 _ fun t2 h2 => ?_
        exact Passes.bind ((ih i next h2).mono fun _ _ h3 => Passes.pure h3)
      · refine put_passes ht _ fun t1 h1 => ?_
        exact Passes.bind ((ih i next h1).mono fun _ _ h2 => Passes.pure h2)

theorem testfsPwdWith_passes (n i : ℕ) (h : NoneDirty s) :
    Passes (testfsPwdWith checkedPut n i) s fun _ t => NoneDirty t := by
  induction n generalizing i s with
  | zero => exact Passes.lift Wlp.of_failure
  | succ n ih =>
    rw [testfsPwdWith]
    refine Passes.bind (Passes.read (keeps_testfsDirNameToInodeNr i dotdot) fun p => ?_)
    refine Passes.bind (Passes.read (Keeps.guard _) fun _ => ?_)
    refine Passes.ite (fun _ => Passes.pure h) fun _ => ?_
    refine Passes.bind (Passes.lift ((testfsGetInode_noneDirty h p.toNat).mono fun _ t ht => ?_))
    refine Passes.bind (Passes.read (keeps_testfsFindDirent p.toNat i) fun d => ?_)
    refine Passes.bind (Passes.read (Keeps.lift d) fun d => ?_)
    refine Passes.bind ((ih p.toNat ht).mono fun above t1 h1 => put_passes h1 _ fun t2 h2 => ?_)
    exact Passes.bind (Passes.read (Keeps.lift _) fun _ => Passes.pure h2)

/-- A command whose argument names something in the current directory. -/
theorem named_passes (name : CString) {f : Testfs → ℤ → ExceptT ℕ FsM Reply}
    (hf : ∀ nr, Passes (f s nr) s fun _ _ => True) :
    Passes (do
      let s ← (get : FsM Testfs)
      let inodeNr ← testfsDirNameToInodeNr s.curDir name
      if inodeNr < 0 then return (inodeNr,.nothing) else f s inodeNr : ExceptT ℕ FsM Reply)
      s fun _ _ => True := by
  refine Passes.bind (Passes.lift (Wlp.get_iff.mpr ?_))
  refine Passes.bind (Passes.read (keeps_testfsDirNameToInodeNr s.curDir name) fun nr => ?_)
  exact Passes.ite (fun _ => Passes.pure trivial) fun _ => hf nr

theorem cmdLsInternalWith_passes (h : NoneDirty s) (recursive : Bool) (args : List CString) :
    Passes (cmdLsInternalWith checkedPut recursive args) s fun _ _ => True := by
  match args with
  | [] => exact Passes.pure trivial
  | [cdir] =>
    refine named_passes cdir fun nr => getInode_passes h _ fun inode t ht => ?_
    refine Passes.ite (fun _ => ?_) fun _ => Passes.pure trivial
    refine Passes.bind ((testfsLsWith_passes recursive _ nr.toNat 0 ht).mono fun _ t1 h1 => ?_)
    exact put_passes h1 _ fun _ _ => Passes.pure trivial
  | _::_::_ => exact Passes.pure trivial

theorem cmdPwdWith_passes (h : NoneDirty s) (args : List CString) :
    Passes (cmdPwdWith checkedPut args) s fun _ _ => True := by
  cases args with
  | nil =>
    refine Passes.bind (Passes.read Keeps.get fun s' => ?_)
    exact Passes.bind ((testfsPwdWith_passes _ s'.curDir h).mono fun _ _ _ => Passes.pure trivial)
  | cons => exact Passes.pure trivial

theorem cmdCdWith_passes (h : NoneDirty s) (args : List CString) :
    Passes (cmdCdWith checkedPut args) s fun _ _ => True := by
  match args with
  | [] => exact Passes.pure trivial
  | [dir] =>
    refine named_passes dir fun nr => getInode_passes h _ fun inode t ht => ?_
    refine Passes.ite (fun _ => ?_) fun _ => ?_
    · exact put_passes ht _ fun _ _ => Passes.pure trivial
    · exact put_passes ht s.curDir fun _ _ => Passes.bind (Passes.any fun _ _ => Passes.pure trivial)
  | _::_::_ => exact Passes.pure trivial

theorem cmdStatWith_passes (h : NoneDirty s) (args : List CString) :
    Passes (cmdStatWith checkedPut args) s fun _ _ => True := by
  match args with
  | [] => exact Passes.pure trivial
  | [name] =>
    refine named_passes name fun nr => getInode_passes h _ fun inode t ht => ?_
    exact put_passes ht _ fun _ _ => Passes.pure trivial
  | _::_::_ => exact Passes.pure trivial

theorem cmdCreateTypeWith_passes (type : InodeType) (args : List CString) (s : Testfs) :
    Passes (cmdCreateTypeWith checkedPut type args) s fun _ _ => True := by
  match args with
  | [] => exact Passes.pure trivial
  | [name] =>
    refine Passes.bind (Passes.any fun s' t => ?_)
    refine Passes.bind ((testfsCreateFileOrDirWith_passes s'.curDir type name t).mono ?_)
    exact fun _ _ _ => Passes.pure trivial
  | _::_::_ => exact Passes.pure trivial

theorem cmdRmWith_passes (h : NoneDirty s) (args : List CString) :
    Passes (cmdRmWith checkedPut args) s fun _ _ => True := by
  match args with
  | [] => exact Passes.pure trivial
  | [name] =>
    refine Passes.bind (Passes.read Keeps.get fun s' => ?_)
    refine Passes.bind ((testfsRemoveDirentWith_passes h s'.curDir name).mono fun nr t _ => ?_)
    refine Passes.ite (fun _ => Passes.pure trivial) fun _ => Passes.bind (Passes.any fun _ t1 => ?_)
    refine Passes.bind ((testfsRemoveInodeWith_passes nr.toNat t1).mono fun _ _ _ => ?_)
    exact Passes.bind (Passes.any fun _ _ => Passes.pure trivial)
  | _::_::_ => exact Passes.pure trivial

theorem testfsGetFileInodeWith_passes (h : NoneDirty s) (dir : ℕ) (name : CString) :
    Passes (testfsGetFileInodeWith checkedPut dir name) s fun _ t => NoneDirty t := by
  refine Passes.bind (Passes.read (keeps_testfsDirNameToInodeNr dir name) fun nr => ?_)
  refine Passes.ite (fun _ => Passes.pure h) fun _ => getInode_passes h _ fun inode t ht => ?_
  refine Passes.ite (fun _ => ?_) fun _ => Passes.pure ht
  exact put_passes ht _ fun _ h1 => Passes.pure h1

theorem readFileWith_passes (h : NoneDirty s) (i : ℕ) (offset : ℤ) (size : ℕ) :
    Passes (readFileWith checkedPut i offset size) s fun _ _ => True := by
  refine Passes.bind (Passes.read (keeps_inodeOf i) fun inode => Passes.ite (fun _ => ?_) fun _ => ?_)
  · exact put_passes h i fun _ _ => Passes.pure trivial
  refine Passes.ite (fun _ => ?_) fun _ => ?_
  · exact put_passes h i fun _ _ => Passes.pure trivial
  refine Passes.bind (Passes.read (keeps_testfsReadData i offset size) fun r => ?_)
  exact put_passes h i fun _ _ => Passes.ite (fun _ => Passes.pure trivial) fun _ =>
    Passes.pure trivial

theorem cmdReadWith_passes (h : NoneDirty s) (args : List CString) :
    Passes (cmdReadWith checkedPut args) s fun _ _ => True := by
  unfold cmdReadWith
  split
  · split
    · exact Passes.pure trivial
    refine Passes.ite (fun _ => Passes.pure trivial) fun _ => ?_
    split
    · exact Passes.pure trivial
    refine Passes.bind (Passes.read Keeps.get fun s' => ?_)
    refine Passes.bind ((testfsGetFileInodeWith_passes h s'.curDir _).mono fun r t ht => ?_)
    cases r with
    | error ret => exact Passes.pure trivial
    | ok i => exact readFileWith_passes ht i _ _
  · exact Passes.pure trivial

/-- The file is put right after it was stored. -/
theorem cmdWriteWith_passes (h : NoneDirty s) (args : List CString) :
    Passes (cmdWriteWith checkedPut args) s fun _ _ => True := by
  unfold cmdWriteWith
  split
  · split
    · exact Passes.pure trivial
    refine Passes.ite (fun _ => Passes.pure trivial) fun _ => ?_
    refine Passes.bind (Passes.read Keeps.get fun s' => ?_)
    refine Passes.bind ((testfsGetFileInodeWith_passes h s'.curDir _).mono fun r t ht => ?_)
    cases r with
    | error ret => exact Passes.pure trivial
    | ok i =>
      refine Passes.bind (Passes.any fun ret t1 => ?_)
      refine Passes.bind (Passes.lift ((testfsSyncInode_clean i t1).mono fun _ t2 h2 => ?_))
      exact Passes.bind ((checkedPut_passes h2).mono fun _ _ _ => Passes.pure trivial)
  · exact Passes.pure trivial

/-- From a state without dirty inodes no command puts a dirty one. -/
theorem funcWith_passes (h : NoneDirty s) (cmd : Command) (args : List CString) :
    Passes (funcWith checkedPut cmd args) s fun _ _ => True := by
  cases cmd with
  | cd => exact cmdCdWith_passes h args
  | pwd => exact cmdPwdWith_passes h args
  | ls => exact cmdLsInternalWith_passes h false args
  | lsr => exact cmdLsInternalWith_passes h true args
  | create => exact cmdCreateTypeWith_passes .file args s
  | stat => exact cmdStatWith_passes h args
  | rm => exact cmdRmWith_passes h args
  | mkdir => exact cmdCreateTypeWith_passes .dir args s
  | read => exact cmdReadWith_passes h args
  | write => exact cmdWriteWith_passes h args
  | fsstat => exact Passes.any fun _ _ => trivial

theorem quitWith_passes (h : NoneDirty s) : Passes (quitWith checkedPut) s fun _ _ => True :=
  Passes.bind (Passes.read Keeps.get fun s' => put_passes h s'.curDir fun _ _ =>
    Passes.any fun _ _ => trivial)

/-- The program quits by putting the current directory. -/
theorem quitWith_of_dirty (h : Dirty s s.curDir) :
    (quitWith checkedPut).run.run s = some (.error s.curDir,s) := by
  rw [quitWith,ExceptT.run_bind,StateT.run_bind]
  refine Option.bind_eq_some_iff.mpr ⟨(.ok s,s),rfl,?_⟩
  simp only
  rw [ExceptT.run_bind]
  exact Option.bind_eq_some_iff.mpr ⟨_,checkedPut_of_dirty h,rfl⟩

end Checked

end CommandPuts
end OsLabs

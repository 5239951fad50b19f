import Mathlib.Data.BitVec
import Mathlib.Tactic
import OsLabs.Bytes
import OsLabs.Wlp
import OsLabs.CheckedRun
import OsLabs.Transition
import OsLabs.FsModel
import OsLabs.DirModel
import OsLabs.FsVolume
import OsLabs.FsAccounts
import OsLabs.Dirents
import OsLabs.DirMap
import OsLabs.DirOps
import OsLabs.FsCreation
import OsLabs.RootedTree
import OsLabs.FsTree
import OsLabs.FsCommands
import OsLabs.FsImage
import OsLabs.FsMaking
import OsLabs.FsSessions
import OsLabs.FsGrowth
import OsLabs.DirReplies
import OsLabs.WriteEffects
import OsLabs.DirtyParents
import OsLabs.CommandPuts

/-!
# Dirty inodes between commands

Between two commands no inode is dirty, and then no call of `testfs_put_inode` is made on a dirty
inode. The exception is a creation that fails for want of a second block when the directory needs
its indirect block: it leaves the current directory dirty.
-/

namespace OsLabs
namespace CleanInodes

open Bytes FsModel DirModel FsVolume FsAccounts Dirents DirMap DirOps FsCreation
open RootedTree FsTree FsCommands FsImage FsMaking FsSessions FsGrowth DirReplies WriteEffects
open DirtyParents CommandPuts

/-- The command is to create something for which the current directory needs its eleventh block
when one block is left. -/
def LeavesDirty (s : Testfs) : FsSessions.Action → Prop
  | .command cmd [name] => ∃ type es, (cmd = .create ∧ type = .file ∨ cmd = .mkdir ∧ type = .dir) ∧
      IsDir (volume s) s.curDir es ∧ CreateUndone (volume s) s.curDir es type name
  | _ => False

section Steps

variable {s t : Testfs} {c : Memory} {v w : Volume} {E : ℕ → List Entry} {a : FsSessions.Action}

theorem noneDirty_of_ready (h : Ready s c v E) (hc : c.dirty = ∅) : NoneDirty s := by
  intro i hi
  have hmem := h.valid.stands.memory.dirty_mem i hi
  rw [hc] at hmem
  exact hmem

theorem fresh_dirs (h : Ready s c v E) (i : ℕ) (hi : v.inodeUsed i = false) :
    v.inode i = Dinode.zero :=
  h.tree.unmarked i (by rw [Marked,hi]; simp)

/-- The directory that might have been touched was not. -/
theorem untouched (h : Ready t (c.touch c.curDir) v E) (hc : c.dirty = ∅) (ht : Valid t c w) :
    Ready t c v E := by
  obtain rfl : w = v := ht.stands.volume_eq.symm.trans h.valid.stands.volume_eq
  exact { h with
    valid := ht
    dirty := by
      rw [hc]
      exact Set.empty_subset _ }

theorem cmdCreateType_clean (h : Ready s c v E) (type : InodeType) (args : List CString) :
    Wlp (cmdCreateType type args) s (fun r t => r.1 < 0 → (∃ w, Valid t c w) ∨
      ∃ name, args = [name] ∧ CreateUndone v c.curDir (E c.curDir) type name) := by
  match args with
  | [] => exact Wlp.pure_iff.mpr fun _ => .inl ⟨v,h.valid⟩
  | [name] =>
    simp only [cmdCreateType,cmdCreateTypeWith,Wlp.bind_iff,Wlp.get_iff,monadLift_self]
    rw [h.curDir_eq]
    refine (testfsCreateFileOrDir_effects h.counted h.valid h.isDir
      (h.tree.marked_of_directory h.curDir) (fresh_dirs h) type name).mono ?_
    exact fun r t hr => Wlp.pure_iff.mpr fun hneg => (hr hneg).imp_right fun hu => ⟨name,rfl,hu⟩
  | _::_::_ => exact Wlp.pure_iff.mpr fun _ => .inl ⟨v,h.valid⟩

theorem cmdRm_clean (h : Ready s c v E) (args : List CString) :
    Wlp (cmdRm args) s (fun r t => r.1 < 0 → ∃ w, Valid t c w) := by
  match args with
  | [] => exact Wlp.pure_iff.mpr fun _ => ⟨v,h.valid⟩
  | [name] =>
    have ht := h.touch
    simp only [cmdRm,cmdRmWith,Wlp.bind_iff,Wlp.get_iff,monadLift_self]
    rw [h.curDir_eq]
    refine ((testfsRemoveDirent_effects h.counted h.valid h.isDir h.tree.isDir name).and
      (testfsRemoveDirent_spec (c := c.touch c.curDir) (Set.mem_insert ..) ht.counted ht.valid
        h.isDir h.tree.isDir)).mono ?_
    rintro r t ⟨hstands,hspec⟩
    rw [Wlp.ite_iff]
    constructor
    · intro hr
      refine Wlp.pure_iff.mpr fun _ => ?_
      rcases hspec with ⟨-,h1⟩ | ⟨w,e,-,-,-,-,rfl,-,-⟩
      · exact ⟨v,hstands hr,h1.accounts,h1.backed⟩
      · omega
    · intro _
      simp only [Wlp.bind_iff]
      exact fun _ _ _ _ _ _ _ _ _ => Wlp.pure_iff.mpr fun hneg => absurd hneg (by decide)
  | _::_::_ => exact Wlp.pure_iff.mpr fun _ => ⟨v,h.valid⟩

/-- A step leaves no inode dirty, with the one exception. -/
theorem clean_step (h : Ready s c v E) (hc : c.dirty = ∅) (hok : ¬LeavesDirty s a)
    (hs : fsStep s a = some t) : ∃ c' w E', Ready t c' w E' ∧ c'.dirty = ∅ := by
  cases a with
  | command cmd args =>
    obtain ⟨⟨r,u⟩,hrun,rfl⟩ := Option.map_eq_some_iff.mp hs
    -- a creation that fails has not touched the directory
    have hcreate : ∀ type, (cmd = .create ∧ type = .file ∨ cmd = .mkdir ∧ type = .dir) → r.1 < 0 →
        (cmdCreateType type args).run s = some (r,u) → ∃ w, Valid u c w := by
      intro type hcmd hr hrun
      refine (cmdCreateType_clean h type args r u hrun hr).resolve_right ?_
      rintro ⟨name,rfl,hu⟩
      refine hok ⟨type,E c.curDir,hcmd,?_,?_⟩
      · rw [h.valid.stands.volume_eq,h.curDir_eq]
        exact h.isDir
      · rw [h.valid.stands.volume_eq,h.curDir_eq]
        exact hu
    cases func_effect h cmd args r u hrun with
    | kept hk =>
      obtain ⟨c',w,E',hw,-,-,hdirty,-⟩ := hk
      exact ⟨c',w,E',hw,Set.subset_empty_iff.mp (hc ▸ hdirty)⟩
    | failed w hcmd hr hw =>
      have hvalid : ∃ w, Valid u c w := by
        rcases hcmd with rfl | rfl | rfl
        · exact hcreate .file (.inl ⟨rfl,rfl⟩) hr hrun
        · exact hcreate .dir (.inr ⟨rfl,rfl⟩) hr hrun
        · exact cmdRm_clean h args r u hrun hr
      obtain ⟨w',hw'⟩ := hvalid
      exact ⟨c,w,E,untouched hw hc hw',hc⟩
    | moved name e c' _ _ _ hw _ hdirty => exact ⟨c',v,E,hw,hdirty⟩
    | listed name e _ _ _ _ hw => exact ⟨_,v,E,hw,hc⟩
  | restart =>
    obtain ⟨dev,hw⟩ := restart_ready h hs
    exact ⟨_,v,E,hw,rfl⟩

/-- In the exceptional case the current directory is dirty after the step. -/
theorem dirty_of_leavesDirty (h : Ready s c v E) (hl : LeavesDirty s a)
    (hs : fsStep s a = some t) : Dirty t s.curDir := by
  match a, hl with
  | .command cmd [name], ⟨type,es,hcmd,hd,hu⟩ =>
    obtain ⟨⟨r,u⟩,hrun,rfl⟩ := Option.map_eq_some_iff.mp hs
    rw [h.valid.stands.volume_eq] at hd hu
    have hundone := testfsCreateFileOrDir_undone (s := s) h.valid
      (by rw [h.curDir_eq]; exact h.held) hd (by rw [h.curDir_eq]; exact h.tree.marked_of_directory h.curDir) (fresh_dirs h) hu
    have hwlp : Wlp (cmdCreateType type [name]) s (fun _ t => Dirty t s.curDir) := by
      simp only [cmdCreateType,cmdCreateTypeWith,Wlp.bind_iff,Wlp.get_iff,monadLift_self]
      exact hundone.mono fun _ _ ht => Wlp.pure_iff.mpr ht.2
    rcases hcmd with ⟨rfl,rfl⟩ | ⟨rfl,rfl⟩
    · exact hwlp r u hrun
    · exact hwlp r u hrun

/-- A command in a directory that is far from its eleventh block. -/
theorem not_leavesDirty (h : Ready s c v E) (hs : sizes (E c.curDir) < nrDirectBlocks*blockSize)
    (cmd : Command) (name : CString) : ¬LeavesDirty s (.command cmd [name]) := by
  rintro ⟨type,es,-,hd,hu⟩
  rw [h.valid.stands.volume_eq,h.curDir_eq] at hd
  have hstop := hd.laid.stop_eq.symm.trans h.isDir.laid.stop_eq
  have hfar := hu.far
  rw [Nat.add_left_cancel hstop] at hfar
  exact absurd ((Nat.div_lt_iff_lt_mul (by decide)).mpr hs) (Nat.not_lt.mpr hfar)

end Steps

/-- As long as no creation runs out of blocks for the eleventh block of the current directory,
no inode is dirty between two commands and no command puts a dirty inode, nor does the end of the
program; a step that does leaves the current directory dirty. -/
theorem inodes_put_clean {s : Testfs} (h : FsRun (fun s a => ¬LeavesDirty s a) s) :
    NoneDirty s ∧
      (∀ cmd args i t, (funcWith checkedPut cmd args).run.run s ≠ some (.error i,t)) ∧
      (∀ i t, (quitWith checkedPut).run.run s ≠ some (.error i,t)) ∧
      ∀ a t, fsStep s a = some t → (NoneDirty t ↔ ¬LeavesDirty s a) := by
  obtain ⟨c,v,E,hr,hc⟩ := h.invariant (P := fun s => ∃ c v E, Ready s c v E ∧ c.dirty = ∅)
    (fun dev v E s hs => ⟨_,v,E,hs,rfl⟩)
    fun s a t ⟨c,v,E,hs,hc⟩ hok hstep => clean_step hs hc hok hstep
  have hnone := noneDirty_of_ready hr hc
  refine ⟨hnone,fun cmd args i t => (funcWith_passes hnone cmd args).no_error i t,
    fun i t => (quitWith_passes hnone).no_error i t,fun a t hs => ⟨fun ht hl => ?_,fun hok => ?_⟩⟩
  · exact ht _ (dirty_of_leavesDirty hr hl hs)
  · obtain ⟨c',w,E',hw,hc'⟩ := clean_step hr hc hok hs
    exact noneDirty_of_ready hw hc'

theorem usedTestfs_noneDirty : NoneDirty usedTestfs := by
  obtain ⟨dev,v,hfresh,-⟩ := freshTestfs_ready
  obtain ⟨i,c,E,hready,hfile⟩ := fileTestfs_ready
  have h1 : ¬LeavesDirty freshTestfs createFile := not_leavesDirty hfresh
    (show sizes (rootEntries 0) < _ by rw [sizes_rootEntries]; decide) .create fileName
  have h2 : ¬LeavesDirty fileTestfs makeDir := not_leavesDirty hready
    (by rw [hfile.curDir,hfile.sizes_root]; decide) .mkdir dirName
  have h3 : ¬LeavesDirty dirTestfs removeFile := by
    rintro ⟨_,_,⟨hrm,-⟩ | ⟨hrm,-⟩,-⟩ <;> cases hrm
  exact (inodes_put_clean (usedTestfs_run h1 h2 h3)).1

end CleanInodes
end OsLabs

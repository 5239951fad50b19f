import Mathlib.Data.BitVec
import Mathlib.Tactic
import OsLabs.Bytes
import OsLabs.Wlp
import OsLabs.Transition
import OsLabs.FsModel
import OsLabs.DirModel
import OsLabs.FsVolume
import OsLabs.FsAccounts
import OsLabs.Dirents
import OsLabs.DirMap
import OsLabs.DirOps
import OsLabs.FsCreation
import OsLabs.RootedTree
import OsLabs.FsTree
import OsLabs.FsCommands
import OsLabs.FsReading
import OsLabs.FsImage
import OsLabs.FsMaking
import OsLabs.FsSessions
import OsLabs.FsGrowth
import OsLabs.DirReplies
import OsLabs.WriteEffects
import OsLabs.DirectoryTree

/-!
# References to inodes

Between two commands the only inode in the hash table is the current directory, with one reference,
so that the table is empty once `main` has put it. The exception is `ls` or `lsr` of a file: it
returns `-ENOTDIR` without putting the inode it has got.
-/

namespace OsLabs
namespace InodeReferences

open Bytes FsModel DirModel FsVolume FsAccounts Dirents DirMap DirOps FsCreation
open RootedTree FsTree FsCommands FsReading FsImage FsMaking FsSessions FsGrowth DirReplies WriteEffects
open DirectoryTree Transition

/-- The hash table has exactly one inode, the current directory, with `i_count = 1`. -/
def Balanced (s : Testfs) : Prop :=
  ∀ i, (s.inodes i).map Inode.iCount = if i = s.curDir then some 1 else none

/-- The command lists something in the current directory that is not a directory. -/
def ListsFile (s : Testfs) : FsSessions.Action → Prop
  | .command cmd [name] => (cmd = .ls ∨ cmd = .lsr) ∧
      ∃ nr, (testfsDirNameToInodeNr s.curDir name).run s = some (nr,s) ∧ 0 ≤ nr ∧
        ¬Directory (volume s) nr.toNat
  | _ => False

/-- One inode is held, once. -/
def single (d : ℕ) : ℕ → Option ℤ := Function.update (fun _ => none) d (some 1)

section Steps

variable {s t : Testfs} {c : Memory} {v : Volume} {E : ℕ → List Entry} {a : FsSessions.Action}

theorem balanced_of_single (h : Ready s c v E) (hc : c.count = single c.curDir) : Balanced s := by
  intro i
  rw [h.valid.stands.memory.count_eq i,hc,single,Function.update_apply,h.curDir_eq]

/-- The reference moves to the new current directory, which may be the old one. -/
theorem single_moved (hcounted : c.Counted) (hc : c.count = single c.curDir) (i : ℕ) :
    ((c.hold i).release c.curDir).count = single i := by
  by_cases hi : i = c.curDir
  · rw [hi,release_hold hcounted]
    exact hc
  · have hnone : c.count i = none := by
      rw [hc]
      exact Function.update_of_ne hi ..
    have hself : c.count c.curDir = some 1 := by
      rw [hc]
      exact Function.update_self ..
    simp only [Memory.hold,Memory.release,hnone,Option.getD_none,Int.zero_add]
    rw [Function.update_of_ne (Ne.symm hi),hself,Option.bind_some,if_pos (Int.sub_self 1),hc,single,
      single,Function.update_comm hi,Function.update_idem]
    have hnil : Function.update (fun _ : ℕ => (none : Option ℤ)) c.curDir none = fun _ => none :=
      Function.update_eq_self_iff.mpr rfl
    rw [hnil]

theorem lookup_run (h : Ready s c v E) {name : CString} {e : Entry}
    (hlook : lookup name (E c.curDir) = some e) :
    (testfsDirNameToInodeNr s.curDir name).run s = some ((e.nr.toNat : ℤ),s) := by
  obtain ⟨nr,t,hrun,rfl,hr⟩ := testfsDirNameToInodeNr_total h.valid h.held h.isDir name
  rw [hlook] at hr
  obtain rfl : nr = e.nr.toNat := Eq.trans hr (toInt_of_live (lookup_some hlook).2.1)
  rw [h.curDir_eq]
  exact hrun

/-- A step that lists no file keeps the one reference. -/
theorem single_step (h : Ready s c v E) (hc : c.count = single c.curDir) (hok : ¬ListsFile s a)
    (hs : fsStep s a = some t) :
    ∃ c' w E', Ready t c' w E' ∧ c'.count = single c'.curDir := by
  cases a with
  | command cmd args =>
    obtain ⟨r,heff⟩ := command_effect h hs
    cases heff with
    | kept hk =>
      obtain ⟨c',w,E',hw,hcount,hcur,-⟩ := hk
      exact ⟨c',w,E',hw,by rw [hcount,hc,hcur]⟩
    | failed w _ _ hw => exact ⟨_,w,E,hw,hc⟩
    | moved name e c' _ _ _ hw hcur _ hcount =>
      exact ⟨c',v,E,hw,by rw [hcount,single_moved h.counted hc,hcur]⟩
    | listed name e hcmd hargs hlook hfile hw =>
      subst hargs
      refine absurd ⟨hcmd,_,lookup_run h hlook,Int.natCast_nonneg _,?_⟩ hok
      rwa [h.valid.stands.volume_eq,Int.toNat_natCast]
  | restart =>
    obtain ⟨dev,hw⟩ := restart_ready h hs
    exact ⟨_,v,E,hw,rfl⟩

theorem cmdLsInternal_file (h : Ready s c v E) {name : CString} {nr : ℤ}
    (hrun : (testfsDirNameToInodeNr s.curDir name).run s = some (nr,s)) (hnr : 0 ≤ nr)
    (hfile : ¬Directory v nr.toNat) (recursive : Bool) :
    Wlp (cmdLsInternal recursive [name]) s (fun _ t => Valid t (c.hold nr.toNat) v) := by
  rw [cmdLsInternal,cmdLsInternalWith,Wlp.bind_iff,Wlp.liftM_iff,Wlp.get_iff,Wlp.bind_iff]
  rintro r t hr
  obtain ⟨rfl,rfl⟩ := Prod.mk.inj (Option.some.inj (hrun.symm.trans hr))
  rw [if_neg (by omega)]
  simp only [Wlp.bind_iff]
  refine (testfsGetInode_valid h.valid _).mono fun _ t1 h1 => ?_
  refine (inodeOf_spec h1.stands _).mono ?_
  rintro inode t2 ⟨rfl,-,hv⟩
  rw [hv,if_neg hfile]
  exact Wlp.pure_iff.mpr h1

theorem unbalanced_of_listsFile (h : Ready s c v E) (hl : ListsFile s a)
    (hs : fsStep s a = some t) : ¬Balanced t := by
  match a, hl with
  | .command cmd [name], ⟨hcmd,nr,hrun,hnr,hfile⟩ =>
    rw [h.valid.stands.volume_eq] at hfile
    obtain ⟨⟨r,u⟩,hr,rfl⟩ := Option.map_eq_some_iff.mp hs
    have hu : Valid u (c.hold nr.toNat) v := by
      rcases hcmd with rfl | rfl
      · exact cmdLsInternal_file h hrun hnr hfile false r u hr
      · exact cmdLsInternal_file h hrun hnr hfile true r u hr
    have hne : nr.toNat ≠ u.curDir := by
      rw [hu.stands.memory.curDir_eq]
      rintro hcur
      exact hfile (hcur ▸ h.curDir)
    intro hb
    have hcount := hb nr.toNat
    rw [hu.stands.memory.count_eq,if_neg hne] at hcount
    have hheld := held_hold c nr.toNat
    rw [Held,hcount] at hheld
    cases hheld

theorem put_empties (h : Ready s c v E) (hc : c.count = single c.curDir) :
    Wlp (testfsPutInode s.curDir) s (fun _ t => ∀ i, t.inodes i = none) := by
  rw [h.curDir_eq]
  refine (testfsPutInode_valid h.valid c.curDir).mono fun _ t ht i => ?_
  have hcount := ht.stands.memory.count_eq i
  simp only [Memory.release,hc,single,Function.update_self,Function.update_idem,Option.bind_some,
    Int.sub_self,if_true] at hcount
  rw [Function.update_apply,ite_self] at hcount
  exact Option.map_eq_none_iff.mp hcount

end Steps

/-- As long as no file is listed, the references are balanced between any two commands and the hash
table is empty after the last one; a step that lists a file leaves them unbalanced. -/
theorem references_balanced {s : Testfs} (h : FsRun (fun s a => ¬ListsFile s a) s) :
    Balanced s ∧ Wlp (testfsPutInode s.curDir) s (fun _ t => ∀ i, t.inodes i = none) ∧
      ∀ a t, fsStep s a = some t → (Balanced t ↔ ¬ListsFile s a) := by
  obtain ⟨c,v,E,hr,hc⟩ := h.invariant
    (P := fun s => ∃ c v E, Ready s c v E ∧ c.count = single c.curDir)
    (fun dev v E s hs => ⟨_,v,E,hs,rfl⟩)
    fun s a t ⟨c,v,E,hs,hc⟩ hok hstep => single_step hs hc hok hstep
  refine ⟨balanced_of_single hr hc,put_empties hr hc,fun a t hs => ⟨fun hb hl => ?_,fun hok => ?_⟩⟩
  · exact unbalanced_of_listsFile hr hl hs hb
  · obtain ⟨c',w,E',hw,hc'⟩ := single_step hr hc hok hs
    exact balanced_of_single hw hc'

theorem usedTestfs_balanced : Balanced usedTestfs := by
  have hok : ∀ {s cmd name}, cmd ≠ .ls → cmd ≠ .lsr → ¬ListsFile s (.command cmd [name]) :=
    fun h1 h2 hl => hl.1.elim h1 h2
  exact (references_balanced (usedTestfs_run (hok (by decide) (by decide))
    (hok (by decide) (by decide)) (hok (by decide) (by decide)))).1

/-! ## A file that is listed -/

/-- The file is created in the root directory, and then listed. -/
def listActions : List FsSessions.Action := [.command .create [fileName],.command .ls [fileName]]

theorem listedFile_not_balanced : ∃ t, exec fsStep listActions freshTestfs = some t ∧
    FsReachable t ∧ ¬Balanced t := by
  obtain ⟨i,c,E,hs,hfile⟩ := fileTestfs_ready
  have hlook : lookup fileName (E c.curDir) = some ⟨BitVec.ofNat 32 i,fileName⟩ := by
    rw [hfile.curDir]
    exact hfile.entry
  -- the new name is no directory
  have hlist : ListsFile fileTestfs (.command .ls [fileName]) := by
    refine ⟨.inl rfl,_,lookup_run hs hlook,Int.natCast_nonneg _,?_⟩
    rw [Int.toNat_natCast,toNat_ofNat_inode hfile.lt,Directory,hfile.self]
    decide
  have hclean : ¬Dirty fileTestfs fileTestfs.curDir := fun hx => by
    have hmem := hs.valid.stands.memory.dirty_mem _ hx
    rw [hfile.dirty] at hmem
    exact hmem
  obtain ⟨r',t,hls⟩ := cmdLs_returns hs hclean false fileName
  have hstep : fsStep fileTestfs (.command .ls [fileName]) = some t := step_of_run hls
  have hexec : exec fsStep listActions freshTestfs = some t :=
    Option.bind_eq_some_iff.mpr ⟨fileTestfs,fileTestfs_step,(exec_singleton fileTestfs _).trans hstep⟩
  exact ⟨t,hexec,FsRun.step fileTestfs_reachable trivial hstep,unbalanced_of_listsFile hs hlist hstep⟩

end InodeReferences
end OsLabs

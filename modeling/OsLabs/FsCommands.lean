import Mathlib.Data.BitVec
import Mathlib.Tactic
import OsLabs.Bytes
import OsLabs.Wlp
import OsLabs.FsModel
import OsLabs.DirModel
import OsLabs.FsVolume
import OsLabs.FsAccounts
import OsLabs.FsRemoval
import OsLabs.Dirents
import OsLabs.DirMap
import OsLabs.DirOps
import OsLabs.FsCreation
import OsLabs.RootedTree
import OsLabs.FsTree

/-!
# Commands

Between two commands a file system is `Ready`: it is valid, its directories form a tree, every
inode is on the device as it is in memory, only the inode of the current directory may have its
dirty flag set, and it is held in memory. Every command keeps this, and one that fails has left
everything the way it was.
-/

namespace OsLabs
namespace FsCommands

open Bytes FsModel DirModel FsVolume FsAccounts FsRemoval Dirents DirMap DirOps FsCreation
open RootedTree FsTree

structure Ready (s : Testfs) (c : Memory) (v : Volume) (E : ℕ → List Entry) : Prop where
  valid : Valid s c v
  tree : Tree v E
  synced : v.disk = v.inode
  counted : c.Counted
  held : (c.count c.curDir).isSome = true
  dirty : c.dirty ⊆ {c.curDir}
  curDir : Directory v c.curDir

/-- A command has led to a file system that is ready again, and to the same one if it failed. -/
def Outcome (c : Memory) (v : Volume) (E : ℕ → List Entry) (r : ℤ) (t : Testfs) : Prop :=
  ∃ c' w E', Ready t c' w E' ∧ (r < 0 → Same v w ∧ c'.curDir = c.curDir ∧ E' = E)

/-- The outcome of a command that has given back every reference it took and has stored every
inode it changed. -/
def Kept (c : Memory) (v : Volume) (E : ℕ → List Entry) (r : ℤ) (t : Testfs) : Prop :=
  ∃ c' w E', Ready t c' w E' ∧ c'.count = c.count ∧ c'.curDir = c.curDir ∧ c'.dirty ⊆ c.dirty ∧
    (r < 0 → Same v w ∧ E' = E)

/-- What a command does to the references and the dirty flags: a change of the current directory
that fails may leave its flag set, `cd` gives back one reference and keeps the other, and `ls` of
a file keeps the one it took. -/
inductive Effect (c : Memory) (v : Volume) (E : ℕ → List Entry) (cmd : Command)
    (args : List CString) (r : ℤ) (t : Testfs) : Prop
  | kept (h : Kept c v E r t)
  | failed (w : Volume) (hcmd : cmd = .create ∨ cmd = .mkdir ∨ cmd = .rm) (hr : r < 0)
      (hready : Ready t (c.touch c.curDir) w E) (hs : Same v w)
  | moved (name : CString) (e : Entry) (c' : Memory) (hcmd : cmd = .cd) (hr : r = 0)
      (hlook : lookup name (E c.curDir) = some e) (hready : Ready t c' v E)
      (hcur : c'.curDir = e.nr.toNat) (hdirty : c'.dirty = ∅)
      (hcount : c'.count = ((c.hold e.nr.toNat).release c.curDir).count)
  | listed (name : CString) (e : Entry) (hcmd : cmd = .ls ∨ cmd = .lsr) (hargs : args = [name])
      (hlook : lookup name (E c.curDir) = some e) (hfile : ¬Directory v e.nr.toNat)
      (hready : Ready t (c.hold e.nr.toNat) v E)

/-! ## Functions that only read -/

section Reading

theorem keeps_inodeOf (i : ℕ) : Keeps (inodeOf i) := Keeps.bind Keeps.get fun _ => Keeps.lift _

theorem keeps_readBlocks (b : ℤ) : Keeps (readBlocks b) :=
  Keeps.bind Keeps.get fun _ => Keeps.bind (Keeps.guard _) fun _ => Keeps.pure _

theorem keeps_readPhysical (b : ℤ) : Keeps (readPhysical b) :=
  Keeps.ite (Keeps.bind (keeps_readBlocks b) fun _ => Keeps.pure _) (Keeps.pure _)

theorem keeps_testfsReadBlock (i : ℕ) (n : ℤ) : Keeps (testfsReadBlock i n) := by
  refine Keeps.bind (Keeps.guard _) fun _ => Keeps.bind (keeps_inodeOf i) fun inode => ?_
  refine Keeps.ite (keeps_readPhysical _) (Keeps.ite (Keeps.pure _) (Keeps.ite ?_ ?_))
  · exact Keeps.bind (keeps_readBlocks _) fun _ => keeps_readPhysical _
  · exact keeps_readPhysical 0

theorem keeps_testfsReadData (i : ℕ) (start : ℤ) (size : ℕ) : Keeps (testfsReadData i start size) := by
  refine Keeps.bind (keeps_inodeOf i) fun inode => Keeps.ite (Keeps.pure _) ?_
  refine Keeps.bind (keeps_testfsReadBlock i _) fun p => Keeps.ite (Keeps.pure _) ?_
  exact Keeps.bind (Keeps.guard _) fun _ => Keeps.pure _

theorem keeps_assertDir (d : ℕ) : Keeps (assertDir d) :=
  Keeps.bind (keeps_inodeOf d) fun _ => Keeps.guard _

theorem keeps_testfsNextDirent (d : ℕ) (o : ℤ) : Keeps (testfsNextDirent d o) := by
  refine Keeps.bind (keeps_assertDir d) fun _ => Keeps.bind (keeps_inodeOf d) fun inode => ?_
  refine Keeps.ite (Keeps.pure _) (Keeps.bind (keeps_testfsReadData d o 8) fun p => ?_)
  refine Keeps.ite (Keeps.pure _) (Keeps.bind (Keeps.guard _) fun _ => ?_)
  refine Keeps.bind (Keeps.guard _) fun _ => Keeps.bind (keeps_testfsReadData d _ _) fun p => ?_
  exact Keeps.ite (Keeps.pure _) (Keeps.pure _)

theorem keeps_scanDirents (d : ℕ) (p : Dirent → Option Bool) (n : ℕ) (o : ℤ) :
    Keeps (scanDirents d p n o) := by
  induction n generalizing o with
  | zero => exact Keeps.failure
  | succ n ih =>
    refine Keeps.bind (keeps_testfsNextDirent d o) fun r => ?_
    cases r with
    | none => exact Keeps.pure _
    | some r => exact Keeps.bind (Keeps.lift _) fun _ => Keeps.ite (Keeps.pure _) (ih r.2)

theorem keeps_scanDir (d : ℕ) (p : Dirent → Option Bool) : Keeps (scanDir d p) :=
  Keeps.bind (keeps_inodeOf d) fun _ => keeps_scanDirents d p _ 0

theorem keeps_testfsDirNameToInodeNr (d : ℕ) (name : CString) :
    Keeps (testfsDirNameToInodeNr d name) := by
  refine Keeps.bind (keeps_assertDir d) fun _ => Keeps.bind (keeps_scanDir d _) fun r => ?_
  obtain ⟨r,o⟩ := r
  cases r with
  | none => exact Keeps.pure _
  | some e => exact Keeps.pure _

theorem keeps_testfsFindDirent (d i : ℕ) : Keeps (testfsFindDirent d i) :=
  Keeps.bind (keeps_assertDir d) fun _ => Keeps.bind (keeps_scanDir d _) fun _ => Keeps.pure _

end Reading

section States

variable {s t : Testfs} {c c' : Memory} {v w : Volume} {E : ℕ → List Entry}

theorem Ready.curDir_eq (h : Ready s c v E) : s.curDir = c.curDir := h.valid.stands.memory.curDir_eq

theorem Ready.isDir (h : Ready s c v E) : IsDir v c.curDir (E c.curDir) := h.tree.isDir _ h.curDir

theorem Ready.touch (h : Ready s c v E) : Ready s (c.touch c.curDir) v E :=
  { h with
    valid := h.valid.touch _
    dirty := Set.insert_subset rfl h.dirty }

/-- A step without a visible effect. -/
theorem Ready.unchanged (h : Ready s c v E) (ht : Valid t c w) (hs : Same v w) : Ready t c w E where
  valid := ht
  tree := h.tree.congr hs.inode hs.logical hs.inodeUsed hs.usedInodes
  synced := by rw [hs.disk,hs.inode,h.synced]
  counted := h.counted
  held := h.held
  dirty := h.dirty
  curDir := by
    rw [Directory,hs.inode]
    exact h.curDir

theorem Ready.kept (h : Ready s c v E) (r : ℤ) : Kept c v E r s :=
  ⟨c,v,E,h,rfl,rfl,subset_rfl,fun _ => ⟨Same.refl v,rfl⟩⟩

theorem Kept.of_success (h : Ready t c' w E) (hn : c'.count = c.count) (hc : c'.curDir = c.curDir)
    (hd : c'.dirty ⊆ c.dirty) {E' : ℕ → List Entry} {r : ℤ} (hr : 0 ≤ r) : Kept c v E' r t :=
  ⟨c',w,E,h,hn,hc,hd,fun hneg => absurd hneg (by omega)⟩

theorem Effect.outcome {cmd : Command} {args : List CString} {r : ℤ}
    (h : Effect c v E cmd args r t) : Outcome c v E r t := by
  cases h with
  | kept h =>
    obtain ⟨c',w,E',hw,-,hc,-,hr⟩ := h
    exact ⟨c',w,E',hw,fun hneg => ⟨(hr hneg).1,hc,(hr hneg).2⟩⟩
  | failed w _ _ hready hs => exact ⟨_,w,E,hready,fun _ => ⟨hs,rfl,rfl⟩⟩
  | moved name e c' _ hr _ hready => exact ⟨c',v,E,hready,fun hneg => absurd hneg (by omega)⟩
  | listed name e _ _ _ _ hready => exact ⟨_,v,E,hready,fun _ => ⟨Same.refl v,rfl,rfl⟩⟩

theorem Counted.hold (hc : c.Counted) (i : ℕ) : (c.hold i).Counted := by
  intro j k hk
  rw [Memory.hold] at hk
  by_cases hj : j = i
  · subst hj
    simp only [Function.update_self,Option.some.injEq] at hk
    cases hcount : c.count j with
    | none =>
      rw [hcount] at hk
      simp only [Option.getD_none] at hk
      omega
    | some m =>
      have := hc j m hcount
      rw [hcount] at hk
      simp only [Option.getD_some] at hk
      omega
  · simp only [Function.update_of_ne hj] at hk
    exact hc j k hk

theorem Counted.release (hc : c.Counted) (i : ℕ) : (c.release i).Counted := by
  intro j k hk
  rw [Memory.release] at hk
  by_cases hj : j = i
  · subst hj
    simp only [Function.update_self] at hk
    obtain ⟨m,hm,hk⟩ := Option.bind_eq_some_iff.mp hk
    have := hc j m hm
    split at hk
    · cases hk
    · cases hk
      omega
  · simp only [Function.update_of_ne hj] at hk
    exact hc j k hk

/-- An inode that was changed and stored. -/
theorem clean_touch_subset (c : Memory) (i : ℕ) : ((c.touch i).clean i).dirty ⊆ (c.clean i).dirty :=
  fun _ hj => ⟨(Set.mem_insert_iff.mp hj.1).resolve_left hj.2,hj.2⟩

/-- An inode that was held and is not held any more. -/
theorem Valid.of_release (hc : c.Counted) {i : ℕ} (h : Valid t ((c.hold i).release i) w) :
    Valid t c w := by
  rw [release_hold hc] at h
  exact h.mono rfl le_rfl rfl Set.sdiff_subset

end States

/-! ## Creating and removing -/

section Changing

variable {s : Testfs} {c : Memory} {v : Volume} {E : ℕ → List Entry} {name : CString}

theorem cmdCreateType_spec (h : Ready s c v E) (type : InodeType) (name : CString) :
    Wlp (cmdCreateType type [name]) s (fun r t =>
      (r.1 < 0 ∧ ∃ w, Ready t (c.touch c.curDir) w E ∧ Same v w) ∨
      (r.1 = 0 ∧ lookup name (E c.curDir) = none ∧ ∃ i w,
        Made c.curDir (E c.curDir) name type i v w ∧
        Ready t (c.clean c.curDir) w (madeEntries E c.curDir name type i))) := by
  have ht := h.touch
  simp only [cmdCreateType,cmdCreateTypeWith,Wlp.bind_iff,Wlp.get_iff,monadLift_self]
  rw [h.curDir_eq]
  refine (testfsCreateFileOrDir_spec (Set.mem_insert _ _) ht.counted ht.valid h.isDir
    (h.tree.marked_of_directory h.curDir)
    (fun i hi => h.tree.unmarked i (by rw [Marked,hi]; simp)) h.synced type name).mono ?_
  rintro r t (⟨hr,w,hw,hs⟩ | ⟨rfl,hnew,i,w,hw,hm⟩)
  · exact Wlp.pure_iff.mpr (Or.inl ⟨hr,w,ht.unchanged hw hs,hs⟩)
  · refine Wlp.pure_iff.mpr (Or.inr ⟨rfl,hnew,i,w,hm,?_⟩)
    exact
      { valid := hw.mono rfl le_rfl rfl (clean_touch_subset ..)
        tree := h.tree.make h.curDir hnew hm
        synced := hm.disk
        counted := h.counted
        held := h.held
        dirty := Set.sdiff_subset.trans h.dirty
        curDir := hm.isDir.iType }

/-- Every entry names a marked inode. -/
theorem marked_of_lookup {d : ℕ} {e : Entry} (h : Tree v E) (he : lookup name (E d) = some e) :
    Marked v e.nr.toNat := by
  obtain ⟨hmem,hlive,hname⟩ := lookup_some he
  have hd := h.directory_of_mem hmem
  by_cases h1 : name = dot
  · rw [h1,h.dot_entry d hd,Option.some.injEq] at he
    rw [← he,toNat_ofNat_inode (h.lt_of_directory hd)]
    exact h.marked_of_directory hd
  · by_cases h2 : name = dotdot
    · obtain ⟨p,hp,hcase⟩ := h.exists_lookup_dotdot hd
      have hmark : Marked v p := by
        rcases hcase with ⟨-,rfl⟩ | ⟨n,hn⟩
        · exact h.isTree.node_root
        · exact h.isTree.source p n d hn
      rw [h2,hp,Option.some.injEq] at he
      rwa [← he,toNat_ofNat_inode (h.bound p hmark)]
    · exact h.isTree.node_of_edge ⟨e,hmem,hlive,h1,h2,hname,rfl⟩

theorem cmdRm_spec (h : Ready s c v E) (name : CString) :
    Wlp (cmdRm [name]) s (fun r t =>
      (r.1 < 0 ∧ Ready t (c.touch c.curDir) v E) ∨
      (r.1 = 0 ∧ ∃ i w, Edge E c.curDir name i ∧ Unmade c.curDir (E c.curDir) name i v w ∧
        Ready t (c.clean c.curDir) w (unmadeEntries E c.curDir name i))) := by
  have ht := h.touch
  simp only [cmdRm,cmdRmWith,Wlp.bind_iff,Wlp.get_iff,monadLift_self]
  rw [h.curDir_eq]
  refine (testfsRemoveDirent_spec (c := c.touch c.curDir) (Set.mem_insert _ _) ht.counted ht.valid
    h.isDir h.tree.isDir).mono ?_
  rintro r t (⟨hr,h1⟩ | ⟨w,e,hlook,hdot,hdotdot,hrem,rfl,hw,hrw⟩)
  · rw [if_pos hr]
    exact Wlp.pure_iff.mpr (Or.inl ⟨hr,ht.unchanged h1 (Same.refl v)⟩)
  · rw [if_neg (by omega),Int.toNat_natCast]
    have hedge : Edge E c.curDir name e.nr.toNat :=
      (edge_iff (h.tree.distinct _)).mpr ⟨hdot,hdotdot,e,hlook,rfl⟩
    have hdi := h.tree.isTree.ne_of_edge hedge
    simp only [Wlp.bind_iff]
    refine (testfsGetInode_valid (hw.touch e.nr.toNat) e.nr.toNat).mono ?_
    intro _ t1 h1
    refine (testfsRemoveInode_valid (Set.mem_insert _ _) h1).mono ?_
    rintro _ t2 ⟨w2,h2,hr2⟩
    have h2' := undo_memory ht.counted h2
    refine (testfsSyncInode_valid h2' c.curDir).mono ?_
    intro _ t3 h3
    have hframe := hrw.frame
    have hm : Unmade c.curDir (E c.curDir) name e.nr.toNat v (w2.sync c.curDir) := by
      refine ⟨?_,?_,?_,hr2.self,?_,?_,?_,?_⟩
      · show w2.inodeUsed = _
        rw [hr2.inodeUsed,hframe.inodeUsed]
      · show w2.usedInodes = _
        rw [hr2.usedInodes,hframe.usedInodes]
      · show w2.maxBlocks = _
        rw [hr2.maxBlocks,hframe.maxBlocks]
      · intro j hjd hji
        show w2.inode j = _
        rw [hr2.inode j hji,hframe.inode j hjd]
      · intro j hjd hji
        show logical w2 j = _
        rw [hr2.logical j hji,hframe.logical j hjd]
      · exact isDir_congr hrw.isDir (hr2.inode _ hdi) (hr2.logical _ hdi)
      · show Function.update w2.disk c.curDir (w2.inode c.curDir) = w2.inode
        funext j
        by_cases hjd : j = c.curDir
        · rw [hjd,Function.update_self]
        · rw [Function.update_of_ne hjd,hr2.disk]
          by_cases hji : j = e.nr.toNat
          · rw [hji,Function.update_self,hr2.self]
          · rw [Function.update_of_ne hji,hframe.disk,h.synced,hr2.inode j hji,
              hframe.inode j hjd]
    refine Wlp.pure_iff.mpr (Or.inr ⟨rfl,_,_,hedge,hm,?_⟩)
    exact
      { valid := h3.mono rfl le_rfl rfl (clean_touch_subset ..)
        tree := h.tree.remove hedge hrem hm
        synced := hm.disk
        counted := h.counted
        held := h.held
        dirty := Set.sdiff_subset.trans h.dirty
        curDir := hm.isDir.iType }

end Changing

/-! ## Files -/

section Files

variable {s : Testfs} {c : Memory} {v : Volume} {E : ℕ → List Entry} {name : CString}

/-- The inode that a name refers to, or a negative number. -/
theorem lookup_spec (h : Valid s c v) (ht : Tree v E) {d : ℕ} (hd : Directory v d) (name : CString) :
    Wlp (testfsDirNameToInodeNr d name) s (fun r t => t = s ∧ (r < 0 ∨
      ∃ e, lookup name (E d) = some e ∧ r = e.nr.toNat ∧ Marked v e.nr.toNat)) := by
  refine (testfsDirNameToInodeNr_spec h.stands h.accounts (ht.isDir d hd) name).mono ?_
  rintro r t ⟨rfl,hr⟩
  refine ⟨rfl,?_⟩
  cases hlook : lookup name (E d) with
  | none =>
    rw [hlook] at hr
    obtain rfl : r = Errno.noent.ret := hr
    exact Or.inl (by decide)
  | some e =>
    rw [hlook] at hr
    exact Or.inr ⟨e,rfl,hr.trans (toInt_of_live (lookup_some hlook).2.1),marked_of_lookup ht hlook⟩

theorem testfsGetFileInode_spec (h : Ready s c v E) (name : CString) :
    Wlp (testfsGetFileInode c.curDir name) s (fun r t => match r with
      | .error e => e < 0 ∧ Valid t c v
      | .ok i => Valid t (c.hold i) v ∧ Marked v i ∧ ¬Directory v i) := by
  rw [testfsGetFileInode,testfsGetFileInodeWith,Wlp.bind_iff]
  refine (lookup_spec h.valid h.tree h.curDir name).mono ?_
  rintro r t ⟨rfl,hr | ⟨e,-,rfl,hmark⟩⟩
  · rw [if_pos hr]
    exact Wlp.pure_iff.mpr ⟨hr,h.valid⟩
  · rw [if_neg (by omega),Int.toNat_natCast]
    simp only [Wlp.bind_iff]
    refine (testfsGetInode_valid h.valid _).mono ?_
    intro _ t1 h1
    refine (inodeOf_spec h1.stands _).mono ?_
    rintro inode t2 ⟨rfl,-,hv⟩
    rw [hv,Wlp.ite_iff]
    constructor
    · intro _
      rw [Wlp.bind_iff]
      refine (testfsPutInode_valid h1 _).mono ?_
      intro _ t3 h3
      exact Wlp.pure_iff.mpr ⟨by decide,Valid.of_release h.counted h3⟩
    · intro hfile
      exact Wlp.pure_iff.mpr ⟨h1,hmark,hfile⟩

theorem testfsWriteData_valid {i : ℕ} (hm : i ∈ c.dirty) (h : Valid s c v) (buf : List Byte)
    (start : ℤ) :
    Wlp (testfsWriteData i buf start) s (fun r t =>
      (r < 0 ∧ Valid t c v) ∨
      ∃ w, 0 ≤ r ∧ Valid t c w ∧ Frame i v w ∧ (w.inode i).iType = (v.inode i).iType) := by
  refine (testfsWriteData_spec (c := c.resize s.dev.size) hm (h.stands.resize le_rfl) h.accounts buf
    start).mono ?_
  rintro r t (⟨hr,ht,-⟩ | ⟨w,rfl,ht,-,-,hw,hin⟩)
  · exact Or.inl ⟨hr,h.same rfl ht⟩
  · exact Or.inr ⟨w,by omega,h.write rfl ht hw.accounts hw.frame hin,hw.frame,hw.iType⟩

/-- The device has the inodes of memory once the written one is stored. -/
theorem disk_of_frame {w : Volume} {i : ℕ} (hs : v.disk = v.inode) (hf : Frame i v w) :
    (w.sync i).disk = (w.sync i).inode := by
  show Function.update w.disk i (w.inode i) = w.inode
  funext j
  by_cases hj : j = i
  · rw [hj,Function.update_self]
  · rw [Function.update_of_ne hj,hf.disk,hs,hf.inode j hj]

theorem cmdWrite_spec (h : Ready s c v E) (args : List CString) :
    Wlp (cmdWrite args) s (fun r t => Kept c v E r.1 t) := by
  have hinval : ∀ s, Ready s c v E →
      Wlp (pure (fails .inval) : FsM Reply) s (fun r t => Kept c v E r.1 t) :=
    fun s hs => Wlp.pure_iff.mpr (hs.kept _)
  rw [cmdWrite,cmdWriteWith.eq_def]
  split
  · rename_i filename offset buf
    split
    · exact hinval s h
    · rename_i offset _
      rw [Wlp.ite_iff]
      refine ⟨fun _ => hinval s h,fun _ => ?_⟩
      simp only [Wlp.bind_iff,Wlp.get_iff,monadLift_self]
      rw [h.curDir_eq]
      refine (testfsGetFileInode_spec h filename).mono ?_
      intro r t hr
      cases r with
      | error e => exact Wlp.pure_iff.mpr ((h.unchanged hr.2 (Same.refl v)).kept _)
      | ok i =>
        obtain ⟨h1,hmark,hfile⟩ := hr
        simp only [Wlp.bind_iff]
        refine (testfsWriteData_valid (Set.mem_insert i _) (h1.touch i) buf.1 offset).mono ?_
        intro r t1 hr
        -- what is left is to store the inode and to drop it
        have hend : ∀ w, Valid t1 ((c.hold i).touch i) w → Wlp (testfsSyncInode i) t1 fun _ t2 =>
            Wlp (testfsPutInode i) t2 fun _ t3 => Valid t3 c (w.sync i) := by
          intro w hw
          refine (testfsSyncInode_valid hw i).mono ?_
          intro _ t2 h2
          refine (testfsPutInode_valid h2 i).mono ?_
          intro _ t3 h3
          have h4 : Valid t3 (((c.touch i).hold i).release i) (w.sync i) :=
            h3.mono rfl le_rfl rfl fun j hj => ⟨hj.1.1,hj.2⟩
          exact undo_memory h.counted h4
        rcases hr with ⟨-,hw⟩ | ⟨w,hge,hw,hf,htype⟩
        · refine (hend v hw).mono fun _ t2 h2 => h2.mono fun _ t3 h3 => ?_
          rw [Volume.sync_of_eq v i (congrFun h.synced i)] at h3
          exact Wlp.pure_iff.mpr ((h.unchanged h3 (Same.refl v)).kept _)
        · refine (hend w hw).mono fun _ t2 h2 => h2.mono fun _ t3 h3 => ?_
          have hd : c.curDir ≠ i := fun hc => hfile (hc ▸ h.curDir)
          have hready : Ready t3 c (w.sync i) E :=
            { valid := h3
              tree := (h.tree.write hmark hfile hf htype).congr rfl rfl rfl rfl
              synced := disk_of_frame h.synced hf
              counted := h.counted
              held := h.held
              dirty := h.dirty
              curDir := by
                show (w.inode c.curDir).iType = _
                rw [hf.inode _ hd]
                exact h.curDir }
          exact Wlp.pure_iff.mpr (Kept.of_success hready rfl rfl subset_rfl (by omega))
  · exact hinval s h

/-- `cmd_read` while it holds the inode. -/
theorem readFile_spec (h : Valid s c v) (i : ℕ) (offset : ℤ) (size : ℕ) :
    Wlp (readFile i offset size) s (fun _ t => Valid t (c.release i) v) := by
  have hput : ∀ (r : Reply), Wlp (testfsPutInode i >>= fun _ => pure r) s
      (fun _ t => Valid t (c.release i) v) := by
    intro r
    rw [Wlp.bind_iff]
    exact (testfsPutInode_valid h i).mono fun _ t ht => Wlp.pure_iff.mpr ht
  rw [readFile,readFileWith,Wlp.bind_iff]
  refine (keeps_inodeOf i s).mono ?_
  rintro inode t rfl
  rw [Wlp.ite_iff]
  refine ⟨fun _ => hput _,fun _ => ?_⟩
  rw [Wlp.ite_iff]
  refine ⟨fun _ => hput _,fun _ => ?_⟩
  rw [Wlp.bind_iff]
  refine (keeps_testfsReadData i offset size t).mono ?_
  rintro r t1 rfl
  simp only [Wlp.bind_iff]
  refine (testfsPutInode_valid h i).mono fun _ t ht => ?_
  split
  · exact Wlp.pure_iff.mpr ht
  · exact Wlp.pure_iff.mpr ht

theorem cmdRead_spec (h : Ready s c v E) (args : List CString) :
    Wlp (cmdRead args) s (fun r t => Kept c v E r.1 t) := by
  have hinval : Wlp (pure (fails .inval) : FsM Reply) s (fun r t => Kept c v E r.1 t) :=
    Wlp.pure_iff.mpr (h.kept _)
  rw [cmdRead,cmdReadWith.eq_def]
  split
  · rename_i filename offset size
    split
    · exact hinval
    · rw [Wlp.ite_iff]
      refine ⟨fun _ => hinval,fun _ => ?_⟩
      split
      · exact hinval
      · simp only [Wlp.bind_iff,Wlp.get_iff,monadLift_self]
        rw [h.curDir_eq]
        refine (testfsGetFileInode_spec h filename).mono ?_
        intro r t hr
        cases r with
        | error e => exact Wlp.pure_iff.mpr ((h.unchanged hr.2 (Same.refl v)).kept _)
        | ok i =>
          refine (readFile_spec hr.1 i _ _).mono fun r t1 h1 => ?_
          exact (h.unchanged (Valid.of_release h.counted h1) (Same.refl v)).kept _
  · exact hinval

theorem cmdStat_spec (h : Ready s c v E) (args : List CString) :
    Wlp (cmdStat args) s (fun r t => Kept c v E r.1 t) := by
  rw [cmdStat,cmdStatWith.eq_def]
  split
  · simp only [Wlp.bind_iff,Wlp.get_iff,monadLift_self]
    rw [h.curDir_eq]
    refine (keeps_testfsDirNameToInodeNr _ _ s).mono ?_
    rintro r t rfl
    rw [Wlp.ite_iff]
    refine ⟨fun _ => Wlp.pure_iff.mpr (h.kept _),fun _ => ?_⟩
    simp only [Wlp.bind_iff]
    refine (testfsGetInode_valid h.valid _).mono fun _ t1 h1 => ?_
    refine (keeps_inodeOf _ t1).mono ?_
    rintro inode t2 rfl
    refine (testfsPutInode_valid h1 _).mono fun _ t3 h3 => ?_
    exact Wlp.pure_iff.mpr
      ((h.unchanged (Valid.of_release h.counted h3) (Same.refl v)).kept _)
  · exact Wlp.pure_iff.mpr (h.kept _)

end Files

/-! ## Directories -/

section Directories

variable {s : Testfs} {c : Memory} {v : Volume} {E : ℕ → List Entry}

theorem testfsLs_spec (hc : c.Counted) (h : Valid s c v) (recursive : Bool) (n i : ℕ) (o : ℤ) :
    Wlp (testfsLs recursive n i o) s (fun _ t => Valid t c v) := by
  induction n generalizing s c i o with
  | zero => exact Wlp.of_failure
  | succ n ih =>
    rw [testfsLs,testfsLsWith,Wlp.bind_iff]
    refine (keeps_testfsNextDirent i o s).mono ?_
    rintro r t rfl
    cases r with
    | none => exact Wlp.pure_iff.mpr h
    | some p =>
      simp only
      rw [Wlp.ite_iff]
      refine ⟨fun _ => ih hc h i p.2,fun _ => ?_⟩
      simp only [Wlp.bind_iff]
      refine (testfsGetInode_valid h _).mono fun _ t1 h1 => ?_
      refine (keeps_inodeOf _ t1).mono ?_
      rintro inode t2 rfl
      rw [Wlp.liftM_iff,Wlp.lift_iff]
      intro name _
      -- what follows after the inode has been dropped again
      have hrest : ∀ t (f : List (CString × Bool) → List (CString × Bool)), Valid t (c.hold p.1.dInodeNr.toNat) v →
          Wlp (testfsPutInode p.1.dInodeNr.toNat) t fun _ t1 =>
            Wlp (testfsLs recursive n i p.2) t1 fun rest t2 =>
              Wlp (pure (f rest) : FsM (List (CString × Bool))) t2 fun _ t3 => Valid t3 c v := by
        intro t f ht
        refine (testfsPutInode_valid ht _).mono fun _ t1 h1 => ?_
        refine (ih hc (Valid.of_release hc h1) i p.2).mono fun _ t2 h2 => ?_
        exact Wlp.pure_iff.mpr h2
      rw [Wlp.ite_iff]
      constructor
      · intro _
        simp only [Wlp.bind_iff]
        refine (ih (Counted.hold hc _) h1 _ 0).mono fun below t3 h3 => ?_
        exact hrest t3 _ h3
      · intro _
        simp only [Wlp.bind_iff]
        exact hrest _ _ h1

/-- `cmd_ls` and `cmd_lsr`; the inode of a file that was to be listed stays in memory. -/
theorem cmdLsInternal_spec (h : Ready s c v E) (recursive : Bool) (args : List CString) :
    Wlp (cmdLsInternal recursive args) s (fun r t => Kept c v E r.1 t ∨
      ∃ name e, args = [name] ∧ lookup name (E c.curDir) = some e ∧ ¬Directory v e.nr.toNat ∧
        Ready t (c.hold e.nr.toNat) v E) := by
  rw [cmdLsInternal,cmdLsInternalWith.eq_def]
  split
  · rename_i name
    simp only [Wlp.bind_iff,Wlp.get_iff,monadLift_self]
    rw [h.curDir_eq]
    refine (lookup_spec h.valid h.tree h.curDir name).mono ?_
    rintro r t ⟨rfl,hr⟩
    rw [Wlp.ite_iff]
    refine ⟨fun _ => Wlp.pure_iff.mpr (.inl (h.kept _)),fun hpos => ?_⟩
    obtain ⟨e,hlook,rfl,-⟩ := hr.resolve_left hpos
    rw [Int.toNat_natCast]
    simp only [Wlp.bind_iff]
    refine (testfsGetInode_valid h.valid _).mono fun _ t1 h1 => ?_
    refine (inodeOf_spec h1.stands _).mono ?_
    rintro inode t2 ⟨rfl,-,hv⟩
    rw [hv,Wlp.ite_iff]
    constructor
    · intro _
      simp only [Wlp.bind_iff]
      refine (testfsLs_spec (Counted.hold h.counted _) h1 recursive lsFuel _ 0).mono
        fun _ t3 h3 => ?_
      refine (testfsPutInode_valid h3 _).mono fun _ t4 h4 => ?_
      exact Wlp.pure_iff.mpr
        (.inl ((h.unchanged (Valid.of_release h.counted h4) (Same.refl v)).kept _))
    · intro hfile
      refine Wlp.pure_iff.mpr (.inr ⟨name,e,rfl,hlook,hfile,?_⟩)
      refine { h with valid := h1, counted := Counted.hold h.counted _, held := ?_ }
      show ((Function.update c.count e.nr.toNat _) c.curDir).isSome = true
      by_cases hr : c.curDir = e.nr.toNat
      · rw [hr,Function.update_self]
        rfl
      · rw [Function.update_of_ne hr]
        exact h.held
  · exact Wlp.pure_iff.mpr (.inl (h.kept _))

theorem testfsPwd_spec (hc : c.Counted) (h : Valid s c v) (n i : ℕ) :
    Wlp (testfsPwd n i) s (fun _ t => Valid t c v) := by
  induction n generalizing s c i with
  | zero => exact Wlp.of_failure
  | succ n ih =>
    rw [testfsPwd,testfsPwdWith,Wlp.bind_iff]
    refine (keeps_testfsDirNameToInodeNr i _ s).mono ?_
    rintro r t rfl
    rw [Wlp.bind_iff,Wlp.liftM_iff,Wlp.guard_iff]
    intro _
    rw [Wlp.ite_iff]
    refine ⟨fun _ => Wlp.pure_iff.mpr h,fun _ => ?_⟩
    simp only [Wlp.bind_iff]
    refine (testfsGetInode_valid h _).mono fun _ t1 h1 => ?_
    refine (keeps_testfsFindDirent _ _ t1).mono ?_
    rintro d t2 rfl
    rw [Wlp.liftM_iff,Wlp.lift_iff]
    intro d' _
    refine (ih (Counted.hold hc _) h1 _).mono fun _ t3 h3 => ?_
    refine (testfsPutInode_valid h3 _).mono fun _ t4 h4 => ?_
    rw [Wlp.liftM_iff,Wlp.lift_iff]
    exact fun _ _ => Wlp.pure_iff.mpr (Valid.of_release hc h4)

theorem cmdPwd_spec (h : Ready s c v E) (args : List CString) :
    Wlp (cmdPwd args) s (fun r t => Kept c v E r.1 t) := by
  rw [cmdPwd,cmdPwdWith.eq_def]
  split
  · simp only [Wlp.bind_iff,Wlp.get_iff,monadLift_self]
    refine (testfsPwd_spec h.counted h.valid _ _).mono fun _ t ht => ?_
    exact Wlp.pure_iff.mpr ((h.unchanged ht (Same.refl v)).kept _)
  · exact Wlp.pure_iff.mpr (h.kept _)

theorem Valid.moved {t : Testfs} {i : ℕ} (h : Valid t c v) :
    Valid { t with curDir := i } { c with curDir := i } v :=
  ⟨⟨{ h.stands.coherent with },h.stands.volume_eq,
    ⟨rfl,h.stands.memory.size_le,h.stands.memory.count_eq,h.stands.memory.dirty_mem⟩⟩,
    h.accounts,h.backed⟩

/-- `cmd_cd`: the new current directory is held instead of the old one. -/
theorem cmdCd_spec (h : Ready s c v E) (name : CString) :
    Wlp (cmdCd [name]) s (fun r t =>
      (r.1 < 0 ∧ Ready t c v E ∧
        ∀ e, lookup name (E c.curDir) = some e → ¬Directory v e.nr.toNat) ∨
      (r.1 = 0 ∧ ∃ e c', lookup name (E c.curDir) = some e ∧ Ready t c' v E ∧
        c'.curDir = e.nr.toNat ∧ c'.dirty = ∅ ∧
        c'.count = ((c.hold e.nr.toNat).release c.curDir).count)) := by
  simp only [cmdCd,cmdCdWith,Wlp.bind_iff,Wlp.get_iff,monadLift_self]
  rw [h.curDir_eq]
  refine (testfsDirNameToInodeNr_spec h.valid.stands h.valid.accounts h.isDir name).mono ?_
  rintro r t ⟨rfl,hr⟩
  cases hlook : lookup name (E c.curDir) with
  | none =>
    rw [hlook] at hr
    obtain rfl : r = Errno.noent.ret := hr
    exact Wlp.pure_iff.mpr (Or.inl ⟨by decide,h,fun e he => by cases he⟩)
  | some e =>
    rw [hlook] at hr
    obtain rfl : r = e.nr.toNat := Eq.trans hr (toInt_of_live (lookup_some hlook).2.1)
    rw [if_neg (by omega),Int.toNat_natCast]
    simp only [Wlp.bind_iff]
    refine (testfsGetInode_valid h.valid _).mono fun _ t1 h1 => ?_
    refine (inodeOf_spec h1.stands _).mono ?_
    rintro inode t2 ⟨rfl,-,hv⟩
    rw [hv,Wlp.ite_iff]
    constructor
    · intro hfile
      rw [Wlp.bind_iff]
      refine (testfsPutInode_valid h1 _).mono fun _ t3 h3 => ?_
      refine Wlp.pure_iff.mpr (Or.inl ⟨by decide,
        h.unchanged (Valid.of_release h.counted h3) (Same.refl v),?_⟩)
      intro e' he
      obtain rfl : e = e' := Option.some.inj he
      exact hfile
    · intro hdir
      simp only [Wlp.bind_iff]
      refine (testfsPutInode_valid h1 _).mono fun _ t3 h3 => ?_
      refine Wlp.modify_iff.mpr (Wlp.pure_iff.mpr (Or.inr ⟨rfl,e,
        { (c.hold e.nr.toNat).release c.curDir with curDir := e.nr.toNat },rfl,?_,rfl,?_,rfl⟩))
      · refine
          { valid := Valid.moved h3
            tree := h.tree
            synced := h.synced
            counted := Counted.release (Counted.hold h.counted _) _
            held := ?_
            dirty := ?_
            curDir := not_not.mp hdir }
        · by_cases hr : e.nr.toNat = c.curDir
          · show (((c.hold e.nr.toNat).release c.curDir).count e.nr.toNat).isSome = true
            rw [hr,release_hold h.counted]
            exact h.held
          · show (Function.update (Function.update c.count e.nr.toNat _) c.curDir _
              e.nr.toNat).isSome = true
            rw [Function.update_of_ne hr,Function.update_self]
            rfl
        · rintro j ⟨hj,hne⟩
          exact absurd (h.dirty hj) hne
      · exact Set.eq_empty_of_forall_notMem fun j hj => hj.2 (h.dirty hj.1)

theorem wlp_unary {f : List CString → FsM Reply} {Q : Reply → Testfs → Prop}
    (hnil : f [] = pure (fails .inval)) (hcons : ∀ a b l, f (a::b::l) = pure (fails .inval))
    (hinval : Q (fails .inval) s) (hf : ∀ name, Wlp (f [name]) s Q) (args : List CString) :
    Wlp (f args) s Q := by
  match args with
  | [] => exact hnil ▸ Wlp.pure_iff.mpr hinval
  | [name] => exact hf name
  | a::b::l => exact hcons a b l ▸ Wlp.pure_iff.mpr hinval

/-- Every command leads to a state between commands. -/
theorem func_effect (h : Ready s c v E) (cmd : Command) (args : List CString) :
    Wlp (cmd.func args) s (fun r t => Effect c v E cmd args r.1 t) := by
  have hkept : ∀ {m : FsM Reply}, Wlp m s (fun r t => Kept c v E r.1 t) →
      Wlp m s (fun r t => Effect c v E cmd args r.1 t) := fun hm => hm.mono fun _ _ => .kept
  have hinval : Kept c v E (fails .inval).1 s := h.kept _
  have hcreate : ∀ type, cmd = .create ∨ cmd = .mkdir ∨ cmd = .rm →
      Wlp (cmdCreateType type args) s (fun r t => Effect c v E cmd args r.1 t) := by
    intro type hcmd
    refine wlp_unary rfl (fun _ _ _ => rfl) (.kept hinval) (fun name => ?_) args
    refine (cmdCreateType_spec h type name).mono ?_
    rintro r t (⟨hr,w,hw,hs⟩ | ⟨hr,-,i,w,-,hw⟩)
    · exact .failed w hcmd hr hw hs
    · exact .kept (Kept.of_success (c := c) hw rfl rfl Set.sdiff_subset (by omega))
  have hls : ∀ recursive, (cmd = .ls ∨ cmd = .lsr) →
      Wlp (cmdLsInternal recursive args) s (fun r t => Effect c v E cmd args r.1 t) := by
    intro recursive hcmd
    refine (cmdLsInternal_spec h recursive args).mono ?_
    rintro r t (hk | ⟨name,e,hargs,hlook,hfile,hw⟩)
    · exact .kept hk
    · exact .listed name e hcmd hargs hlook hfile hw
  cases cmd with
  | cd =>
    refine wlp_unary rfl (fun _ _ _ => rfl) (.kept hinval) (fun name => ?_) args
    refine (cmdCd_spec h name).mono ?_
    rintro r t (⟨-,hw,-⟩ | ⟨hr,e,c',hlook,hw,hcur,hdirty,hcount⟩)
    · exact .kept (hw.kept _)
    · exact .moved name e c' rfl hr hlook hw hcur hdirty hcount
  | pwd => exact hkept (cmdPwd_spec h args)
  | ls => exact hls false (.inl rfl)
  | lsr => exact hls true (.inr rfl)
  | create => exact hcreate .file (.inl rfl)
  | stat => exact hkept (cmdStat_spec h args)
  | rm =>
    refine wlp_unary rfl (fun _ _ _ => rfl) (.kept hinval) (fun name => ?_) args
    refine (cmdRm_spec h name).mono ?_
    rintro r t (⟨hr,hw⟩ | ⟨hr,i,w,-,-,hw⟩)
    · exact .failed v (.inr (.inr rfl)) hr hw (Same.refl v)
    · exact .kept (Kept.of_success (c := c) hw rfl rfl Set.sdiff_subset (by omega))
  | mkdir => exact hcreate .dir (.inr (.inl rfl))
  | read => exact hkept (cmdRead_spec h args)
  | write => exact hkept (cmdWrite_spec h args)
  | fsstat =>
    match args with
    | [] =>
      have hstat : Wlp (cmdFsstat []) s (fun r t => Effect c v E .fsstat [] r.1 t) :=
        Wlp.bind_iff.mpr (Wlp.get_iff.mpr (Wlp.pure_iff.mpr (.kept (h.kept _))))
      exact hstat
    | _::_ => exact Wlp.pure_iff.mpr (.kept hinval)

/-- A command that fails has left everything the way it was. -/
theorem func_spec (h : Ready s c v E) (cmd : Command) (args : List CString) :
    Wlp (cmd.func args) s (fun r t => Outcome c v E r.1 t) :=
  (func_effect h cmd args).mono fun _ _ => Effect.outcome

end Directories

end FsCommands
end OsLabs

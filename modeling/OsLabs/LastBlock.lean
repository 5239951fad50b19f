import Mathlib.Data.BitVec
import Mathlib.Tactic
import OsLabs.Bytes
import OsLabs.Wlp
import OsLabs.Transition
import OsLabs.FsModel
import OsLabs.DirModel
import OsLabs.FsVolume
import OsLabs.FsAccounts
import OsLabs.Dirents
import OsLabs.DirMap
import OsLabs.DirOps
import OsLabs.FsCreation
import OsLabs.RootedTree
import OsLabs.FsTree
import OsLabs.FsCommands
import OsLabs.FsReading
import OsLabs.FsImage
import OsLabs.FsMaking
import OsLabs.FsWalks
import OsLabs.FsSessions
import OsLabs.FsGrowth
import OsLabs.WriteEffects
import OsLabs.InodeReferences
import OsLabs.DirtyParents
import OsLabs.CommandPuts
import OsLabs.CleanInodes

/-!
# A directory that is left dirty

On the smallest file system, the root directory gets a subdirectory and ten files whose entries
fill its ten blocks to the last byte. Then a chain of directories below the subdirectory takes all
blocks but one. The program is started again, and a file is created in the root directory: there
is a block for the indirect block of the root directory, but none for the entry.
-/

namespace OsLabs
namespace LastBlock

open Bytes FsModel DirModel FsVolume FsAccounts Dirents DirMap DirOps FsCreation
open RootedTree FsTree FsCommands FsReading FsImage FsMaking FsWalks FsSessions FsGrowth
open WriteEffects InodeReferences DirtyParents CommandPuts CleanInodes Transition

/-- "a" -/
def subName : CString := ⟨[97],by decide⟩

/-- "x" -/
def lastName : CString := ⟨[120],by decide⟩

/-- The length of a name whose entry fills what is left of a block. -/
def fillLength (k : ℕ) : ℕ := if k = 0 then 8152 else 8183

/-- The names differ in the number of letters "b" that come before the letters "c". -/
def fillName (k : ℕ) : CString :=
  ⟨List.replicate (k + 1) 98 ++ List.replicate (fillLength k - (k + 1)) 99,by simp⟩

def fillActions (n : ℕ) : List FsSessions.Action :=
  (List.range n).map fun k => .command .create [fillName k]

/-- A directory is made in the current one and becomes the current one. -/
def descend : List FsSessions.Action := [.command .mkdir [subName],.command .cd [subName]]

def descendActions (n : ℕ) : List FsSessions.Action := (List.replicate n descend).flatten

def createLast : FsSessions.Action := .command .create [lastName]

def lastActions : List FsSessions.Action :=
  [.command .mkdir [subName]] ++ fillActions 10 ++ [.command .cd [subName]] ++
    descendActions 116 ++ [.restart,createLast]

theorem count_fillName (k : ℕ) : (fillName k).1.count 98 = k + 1 := by
  simp [fillName,List.count_replicate]

theorem length_fillName {k : ℕ} (hk : k < 10) : (fillName k).1.length = fillLength k := by
  simp only [fillName,List.length_append,List.length_replicate]
  rw [Nat.add_sub_cancel']
  rw [fillLength]
  split <;> omega

/-! ## The blocks of the root directory -/

/-- The root directory has `k` entries that fill one block each, and the subdirectory `i` with its
two entries. -/
structure Filled (i k : ℕ) (c : Memory) (v : Volume) (E : ℕ → List Entry) : Prop where
  clean : c.dirty = ∅
  count : c.count = single c.curDir
  curDir : c.curDir = 0
  size : sizes (E 0) = if k = 0 then 31 else k*blockSize
  names : ∀ e ∈ E 0, e.live = true ∧ e.name ≠ lastName ∧ e.name.1.count 98 ≤ k
  sub : lookup subName (E 0) = some ⟨BitVec.ofNat 32 i,subName⟩
  ne : i ≠ 0
  dir : Directory v i
  new : NewName subName (E i)
  small : sizes (E i) = 21
  inodes : v.usedInodes.toNat = k + 2
  blocks : v.usedBlocks.toNat ≤ if k = 0 then 2 else k + 1
  max : v.maxBlocks.toNat = 128

section Filling

variable {s : Testfs} {c : Memory} {v : Volume} {E : ℕ → List Entry} {d i k : ℕ}

theorem sizes_singleton (nr : BitVec 32) (name : CString) :
    sizes [⟨nr,name⟩] = name.1.length + 9 := by
  show 8 + (name.1.length + 1) + 0 = _
  omega

/-- A new directory has the two entries "." and "..". -/
theorem newEntries_dir (hd : d < nrInodes) (hi : i < nrInodes) :
    NewName subName (newEntries .dir d i) ∧ sizes (newEntries .dir d i) = 21 := by
  have hdot : dot ≠ subName := by decide
  have hdotdot : dotdot ≠ subName := by decide
  refine ⟨fun e he => ?_,rfl⟩
  rw [newEntries,if_pos rfl] at he
  rcases List.mem_pair.mp he with rfl | rfl
  · exact ⟨live_ofNat_inode hi _,hdot⟩
  · exact ⟨live_ofNat_inode hd _,hdotdot⟩

theorem filled_zero : ∃ i t c v E, fsStep freshTestfs (.command .mkdir [subName]) = some t ∧
    Ready t c v E ∧ Filled i 0 c v E := by
  obtain ⟨dev,v,hready,hn⟩ := freshTestfs_ready
  have hsize := sizes_rootEntries
  have hnew : NewName subName (rootEntries 0) := newName_rootEntries (by decide) (by decide)
  have hmax : v.maxBlocks.toNat = 128 := by rw [hn.maxBlocks]; rfl
  have hdemand := demand_root hready.tree
  obtain ⟨r,t,i,w,hrun,-,hmade,hi,ht,happ,hused⟩ := cmdCreateType_appends hready .dir
    (d := 0) rfl hnew (by rw [hn.usedInodes]; decide) (by rw [hsize]; decide)
    (by rw [hsize]; decide) (by rw [hdemand,hn.usedBlocks,hmax]; decide)
  have hEi := madeEntries_self rootEntries 0 i subName .dir
  obtain ⟨hnewi,hsizei⟩ := newEntries_dir (d := 0) (by decide) hmade.lt
  refine ⟨i,t,_,w,_,step_of_run hrun,ht,?_⟩
  exact
    { clean := Set.empty_sdiff _
      count := rfl
      curDir := rfl
      size := by
        rw [happ,sizes_append,hsize]
        rfl
      names := fun e he => by
        rw [happ,rootEntries_zero] at he
        rcases List.mem_append.mp he with he | he
        · rcases List.mem_pair.mp he with rfl | rfl <;> exact ⟨by decide,by decide,by decide⟩
        · obtain rfl := List.mem_singleton.mp he
          have hlast : subName ≠ lastName := by decide
          have hcount : subName.1.count 98 ≤ 0 := by decide
          exact ⟨live_ofNat_inode hmade.lt _,hlast,hcount⟩
      sub := lookup_made hready.tree hready.curDir hnew.lookup hmade
      ne := Ne.symm hi
      dir := (hmade.dir rfl).iType
      new := hEi ▸ hnewi
      small := hEi ▸ hsizei
      inodes := by
        rw [hmade.usedInodes,hn.usedInodes]
        rfl
      blocks := by
        rw [hused,hdemand,hn.usedBlocks]
        rfl
      max := by rw [hmade.maxBlocks,hmax] }

/-- The entry of the next name fills what is left of its block. -/
theorem fillLength_fits (hk : k < 10) (hsize : sizes (E 0) = if k = 0 then 31 else k*blockSize) :
    sizes (E 0) < nrDirectBlocks*blockSize ∧
      sizes (E 0) % blockSize + (fillLength k + 9) = blockSize ∧
      sizes (E 0) + (fillLength k + 9) = (k + 1)*blockSize := by
  rw [hsize,fillLength]
  simp only [nrDirectBlocks,blockSize]
  split <;> omega

theorem filled_step (h : Ready s c v E) (hf : Filled i k c v E) (hk : k < 10) :
    ∃ t c' w E', fsStep s (.command .create [fillName k]) = some t ∧ Ready t c' w E' ∧
      Filled i (k+1) c' w E' := by
  have hnew : NewName (fillName k) (E 0) := by
    intro e he
    obtain ⟨hlive,-,hcount⟩ := hf.names e he
    refine ⟨hlive,fun hname => ?_⟩
    rw [hname,count_fillName] at hcount
    omega
  obtain ⟨hdirect,hfits,hnext⟩ := fillLength_fits hk hf.size
  have hlen := length_fillName hk
  have hone := demand_le_one v 0 (sizes (E 0)/blockSize)
  have hblocks := hf.blocks
  have hle : v.usedBlocks.toNat ≤ k + 2 := by
    split at hblocks <;> omega
  obtain ⟨r,t,j,w,hrun,-,hmade,hj,ht,happ,hused⟩ := cmdCreateType_appends h .file
    hf.curDir hnew (by rw [hf.inodes]; simp only [nrInodes]; omega) hdirect
    (by rw [hlen,hfits]) (by rw [hf.max,InodeType.blocks,if_neg (by decide)]; omega)
  have hij : i ≠ j := by
    rintro rfl
    have hmark := h.tree.marked_of_directory hf.dir
    rw [Marked,hmade.unused] at hmark
    cases hmark
  have hEi : madeEntries E 0 (fillName k) .file j i = E i := madeEntries_other _ _ _ hf.ne hij
  refine ⟨t,_,w,_,step_of_run hrun,ht,?_⟩
  exact
    { clean := by
        show c.dirty \ {0} = ∅
        rw [hf.clean,Set.empty_sdiff]
      count := hf.count
      curDir := hf.curDir
      size := by
        rw [happ,sizes_append,sizes_singleton,hlen,hnext,if_neg (Nat.succ_ne_zero k)]
      names := fun e he => by
        rw [happ] at he
        rcases List.mem_append.mp he with he | he
        · obtain ⟨hlive,hlast,hcount⟩ := hf.names e he
          exact ⟨hlive,hlast,by omega⟩
        · obtain rfl := List.mem_singleton.mp he
          refine ⟨live_ofNat_inode hmade.lt _,fun hname => ?_,(count_fillName k).le⟩
          have hcount := count_fillName k
          rw [show fillName k = lastName from hname] at hcount
          exact absurd hcount (by rw [show lastName.1.count 98 = 0 by decide]; omega)
      sub := by
        rw [happ,lookup,List.find?_append]
        show (lookup subName (E 0)).or _ = _
        rw [hf.sub]
        rfl
      ne := hf.ne
      dir := by
        rw [Directory,hmade.inode i hf.ne hij]
        exact hf.dir
      new := hEi ▸ hf.new
      small := hEi ▸ hf.small
      inodes := by
        rw [hmade.usedInodes,toNat_add_one _ (by rw [hf.inodes]; omega),hf.inodes]
      blocks := by
        rw [hused,InodeType.blocks,if_neg (by decide),if_neg (Nat.succ_ne_zero k)]
        by_cases hk0 : k = 0
        · subst hk0
          have hzero : demand v 0 (sizes (E 0)/blockSize) = 0 := by
            have hsize : sizes (E 0) = 31 := hf.size
            rw [hsize]
            exact demand_eq_zero (h.tree.isDir 0 h.tree.root) (by rw [hsize]; decide)
          rw [if_pos rfl] at hblocks
          omega
        · rw [if_neg hk0] at hblocks
          omega
      max := by rw [hmade.maxBlocks,hf.max] }

theorem filled_run (h : Ready s c v E) (hf : Filled i 0 c v E) {n : ℕ} (hn : n ≤ 10) :
    ∃ t c' w E', exec fsStep (fillActions n) s = some t ∧ Ready t c' w E' ∧
      Filled i n c' w E' := by
  induction n with
  | zero => exact ⟨s,c,v,E,rfl,h,hf⟩
  | succ n ih =>
    obtain ⟨t,c',w,E',hexec,ht,hft⟩ := ih (by omega)
    obtain ⟨u,c2,w2,E2,hstep,hu,hfu⟩ := filled_step ht hft (by omega)
    refine ⟨u,c2,w2,E2,?_,hu,hfu⟩
    rw [fillActions,List.range_succ,List.map_append]
    exact exec_trans hexec ((exec_singleton t _).trans hstep)

/-- All blocks are accounted for: ten of the root directory and one of its subdirectory. -/
theorem Filled.counted (h : Ready s c v E) (hf : Filled i 10 c v E) :
    v.usedBlocks.toNat = 11 ∧ ref v 0 .indirect = 0 := by
  have ha := h.valid.accounts
  have hsize := hf.size
  have hle := hf.blocks
  rw [if_neg (by decide)] at hsize hle
  have hroot : ∀ k : Fin nrDirectBlocks, ref v 0 (.direct k) ≠ 0 := by
    intro k
    have hlt := k.isLt
    have hd := h.tree.isDir 0 h.tree.root
    have hstop := hd.laid.stop_eq
    rw [Nat.zero_add,hsize] at hstop
    have href := ref_of_laid_lt (n := k.val) hd.laid (Nat.zero_le _) (by
      rw [hstop]
      simp only [nrDirectBlocks,blockSize] at *
      omega)
    rwa [slotOf_direct hlt,Fin.ofNat_val_eq_self] at href
  have hsub : ref v i (.direct 0) ≠ 0 := by
    have hd := h.tree.isDir i hf.dir
    have hstop := hd.laid.stop_eq
    rw [Nat.zero_add,hf.small] at hstop
    exact ref_of_laid_lt (n := 0) hd.laid (Nat.zero_le _) (by rw [hstop]; decide)
  let S : Finset (ℕ × Slot) := insert (i,.direct 0)
    (Finset.univ.image fun k : Fin nrDirectBlocks => ((0 : ℕ),Slot.direct k))
  have hS : ∀ p ∈ S, ref v p.1 p.2 ≠ 0 := by
    intro p hp
    rcases Finset.mem_insert.mp hp with rfl | hp
    · exact hsub
    · obtain ⟨k,-,rfl⟩ := Finset.mem_image.mp hp
      exact hroot k
  have hcard : S.card = 11 := by
    rw [Finset.card_insert_of_notMem,Finset.card_image_of_injective]
    · rfl
    · intro a b hab
      simpa using hab
    · simp [Ne.symm hf.ne]
  have hlow := ha.card_le S hS
  rw [hcard] at hlow
  refine ⟨by omega,?_⟩
  by_contra hind
  have hnot : ((0 : ℕ),Slot.indirect) ∉ S := by simp [S,Ne.symm hf.ne]
  have htwelve := ha.card_le (insert (0,.indirect) S) fun p hp => by
    rcases Finset.mem_insert.mp hp with rfl | hp
    · exact hind
    · exact hS p hp
  rw [Finset.card_insert_of_notMem hnot,hcard] at htwelve
  omega

end Filling

/-! ## The other blocks -/

/-- The current directory is a new one, `n` levels below the subdirectory, and the root directory
has the entries `es`. -/
structure Deep (es : List Entry) (n : ℕ) (c : Memory) (v : Volume) (E : ℕ → List Entry) :
    Prop where
  clean : c.dirty = ∅
  count : c.count = single c.curDir
  ne : c.curDir ≠ 0
  new : NewName subName (E c.curDir)
  small : sizes (E c.curDir) = 21
  root : E 0 = es
  indirect : ref v 0 .indirect = 0
  inodes : v.usedInodes.toNat = n + 12
  blocks : v.usedBlocks.toNat = n + 11
  max : v.maxBlocks.toNat = 128

section Descending

variable {s : Testfs} {c : Memory} {v : Volume} {E : ℕ → List Entry} {es : List Entry} {i n : ℕ}

/-- `cd` into a directory that the current one names. -/
theorem cd_step (h : Ready s c v E) (hclean : c.dirty = ∅) (hcount : c.count = single c.curDir)
    (hlook : lookup subName (E c.curDir) = some ⟨BitVec.ofNat 32 i,subName⟩) (hlt : i < nrInodes)
    (hdir : Directory v i) :
    ∃ t c', fsStep s (.command .cd [subName]) = some t ∧ Ready t c' v E ∧ c'.curDir = i ∧
      c'.dirty = ∅ ∧ c'.count = single i := by
  have hnr : (BitVec.ofNat 32 i).toNat = i := toNat_ofNat_inode hlt
  obtain ⟨r,t,hrun,c',ht,hcur,hdirty,hc'⟩ := cmdCd_total h hclean hlook (by rwa [hnr])
  rw [hnr] at hcur hc'
  exact ⟨t,c',step_of_run hrun,ht,hcur,hdirty,hc'.trans (single_moved h.counted hcount i)⟩

theorem deep_zero (h : Ready s c v E) (hf : Filled i 10 c v E) :
    ∃ t c', fsStep s (.command .cd [subName]) = some t ∧ Ready t c' v E ∧ Deep (E 0) 0 c' v E := by
  obtain ⟨hblocks,hind⟩ := hf.counted h
  obtain ⟨t,c',hstep,ht,hcur,hdirty,hcount⟩ := cd_step h hf.clean hf.count (hf.curDir ▸ hf.sub)
    (h.tree.lt_of_directory hf.dir) hf.dir
  refine ⟨t,c',hstep,ht,hdirty,hcur ▸ hcount,hcur ▸ hf.ne,?_,?_,rfl,hind,hf.inodes,hblocks,hf.max⟩
  · rw [hcur]
    exact hf.new
  · rw [hcur]
    exact hf.small

theorem deep_step (h : Ready s c v E) (hd : Deep es n c v E) (hn : n < 116) :
    ∃ t c' w E', exec fsStep descend s = some t ∧ Ready t c' w E' ∧ Deep es (n+1) c' w E' := by
  have hdemand : demand v c.curDir (sizes (E c.curDir)/blockSize) = 0 := by
    rw [hd.small]
    exact demand_eq_zero h.isDir (by rw [hd.small]; decide)
  obtain ⟨r,t,i,w,hrun,-,hmade,hi,ht,happ,hused⟩ := cmdCreateType_appends h .dir rfl hd.new
    (by rw [hd.inodes]; simp only [nrInodes]; omega) (by rw [hd.small]; decide)
    (by rw [hd.small]; decide)
    (by rw [hdemand,hd.blocks,hd.max,InodeType.blocks,if_pos rfl]; omega)
  have hi0 : i ≠ 0 := by
    rintro rfl
    have hmark := h.tree.marked_of_directory h.tree.root
    rw [Marked,hmade.unused] at hmark
    cases hmark
  have hclean : (c.clean c.curDir).dirty = ∅ := by
    show c.dirty \ {c.curDir} = ∅
    rw [hd.clean,Set.empty_sdiff]
  obtain ⟨u,c',hstep,hu,hcur,hdirty,hcount⟩ := cd_step ht hclean hd.count
    (lookup_made h.tree h.curDir hd.new.lookup hmade) hmade.lt (hmade.dir rfl).iType
  obtain ⟨hnewi,hsizei⟩ := newEntries_dir (h.tree.lt_of_directory h.curDir) hmade.lt
  have hmkdir : fsStep s (.command .mkdir [subName]) = some t := step_of_run hrun
  refine ⟨u,c',w,_,exec_trans ((exec_singleton s _).trans hmkdir)
    ((exec_singleton t _).trans hstep),hu,?_⟩
  exact
    { clean := hdirty
      count := hcur ▸ hcount
      ne := hcur ▸ hi0
      new := by
        rw [hcur,madeEntries_self]
        exact hnewi
      small := by
        rw [hcur,madeEntries_self]
        exact hsizei
      root := (madeEntries_other _ _ _ (Ne.symm hd.ne) (Ne.symm hi0)).trans hd.root
      indirect := by
        have hinode := hmade.inode 0 (Ne.symm hd.ne) (Ne.symm hi0)
        have hind := hd.indirect
        rw [indirect_eq_zero_iff] at hind ⊢
        rw [hinode]
        exact hind
      inodes := by
        rw [hmade.usedInodes,toNat_add_one _ (by rw [hd.inodes]; omega),hd.inodes]
      blocks := by
        rw [hused,hdemand,hd.blocks,InodeType.blocks,if_pos rfl]
      max := by rw [hmade.maxBlocks,hd.max] }

theorem deep_run (h : Ready s c v E) (hd : Deep es 0 c v E) (hn : n ≤ 116) :
    ∃ t c' w E', exec fsStep (descendActions n) s = some t ∧ Ready t c' w E' ∧
      Deep es n c' w E' := by
  induction n with
  | zero => exact ⟨s,c,v,E,rfl,h,hd⟩
  | succ n ih =>
    obtain ⟨t,c',w,E',hexec,ht,hdt⟩ := ih (by omega)
    obtain ⟨u,c2,w2,E2,hstep,hu,hdu⟩ := deep_step ht hdt (by omega)
    refine ⟨u,c2,w2,E2,?_,hu,hdu⟩
    rw [descendActions,List.replicate_succ',List.flatten_append,List.flatten_singleton]
    exact exec_trans hexec hstep

/-- The program can be started again. -/
theorem restart_total (h : Ready s c v E) (hclean : c.dirty = ∅)
    (hcount : c.count = single c.curDir) :
    ∃ t dev, fsStep s .restart = some t ∧ Ready t ((fresh dev).hold 0) v E := by
  have hnone := noneDirty_of_ready h hclean
  have hquit : Returns quit s := by
    refine Returns.bind (Returns.get s) (Wlp.get_iff.mpr ?_)
    rw [h.curDir_eq]
    refine Returns.bind (testfsPutInode_returns h.valid.stands h.held (hnone _))
      ((testfsPutInode_valid h.valid c.curDir).mono fun _ t ht => ?_)
    refine testfsCloseSuperBlock_returns ht.stands fun i => ?_
    simp only [Memory.release,hcount,single,Function.update_self,Function.update_idem,
      Option.bind_some,Int.sub_self,if_true]
    rw [Function.update_apply,ite_self]
  obtain ⟨r,u,hrun⟩ := hquit
  obtain ⟨c',hu⟩ := quit_valid h r u hrun
  obtain ⟨t,ht,hready⟩ := mount_ready (valid_loaded hu h.synced) h.tree h.synced
  exact ⟨t,_,Option.bind_eq_some_iff.mpr ⟨_,hrun,ht⟩,hready⟩

end Descending

/-! ## The last block -/

/-- The creation of a file whose entry would be in the eleventh block, with one block left. -/
theorem createLast_total {s : Testfs} {c : Memory} {v : Volume} {E : ℕ → List Entry}
    (h : Ready s c v E) (hinodes : v.usedInodes.toNat < nrInodes)
    (hu : CreateUndone v c.curDir (E c.curDir) .file lastName) :
    ∃ t, fsStep s createLast = some t ∧ Dirty t t.curDir := by
  have hret : Returns (cmdCreateType .file [lastName]) s := by
    refine Returns.bind (Returns.get s) (Wlp.get_iff.mpr ?_)
    rw [h.curDir_eq]
    refine Returns.bind ?_ fun _ t _ => Returns.pure _ t
    exact testfsCreateFileOrDir_undone_returns h.valid h.held h.isDir
      (h.tree.marked_of_directory h.curDir) (fresh_dirs h) hinodes hu
  obtain ⟨r,t,hrun⟩ := hret
  have hstep : fsStep s createLast = some t := step_of_run hrun
  have hl : LeavesDirty s createLast := by
    refine ⟨.file,E c.curDir,.inl ⟨rfl,rfl⟩,?_,?_⟩
    · rw [h.valid.stands.volume_eq,h.curDir_eq]
      exact h.isDir
    · rw [h.valid.stands.volume_eq,h.curDir_eq]
      exact hu
  have hdirty := dirty_of_leavesDirty h hl hstep
  -- only the current directory can be dirty
  obtain ⟨c',w,E',ht⟩ := ready_step h createLast hstep
  have hcur : s.curDir = c'.curDir := ht.dirty (ht.valid.stands.memory.dirty_mem _ hdirty)
  rw [hcur,← ht.curDir_eq] at hdirty
  exact ⟨t,hstep,hdirty⟩

/-- The current directory is dirty after the last command, and the program puts it when it quits. -/
theorem lastBlock_puts_dirty : ∃ t, exec fsStep lastActions freshTestfs = some t ∧
    FsReachable t ∧ ¬NoneDirty t ∧
    (quitWith checkedPut).run.run t = some (.error t.curDir,t) := by
  obtain ⟨i,s1,c1,v1,E1,hstep1,h1,hf1⟩ := filled_zero
  obtain ⟨s2,c2,v2,E2,hexec2,h2,hf2⟩ := filled_run h1 hf1 le_rfl
  obtain ⟨s3,c3,hstep3,h3,hd3⟩ := deep_zero h2 hf2
  obtain ⟨s4,c4,v4,E4,hexec4,h4,hd4⟩ := deep_run h3 hd3 le_rfl
  obtain ⟨s5,dev,hstep5,h5⟩ := restart_total h4 hd4.clean hd4.count
  have hsize : sizes (E4 0) = 10*blockSize := by rw [hd4.root,hf2.size,if_neg (by decide)]
  have hu : CreateUndone v4 0 (E4 0) .file lastName := by
    refine ⟨exists_free_inode h4.tree ?_,?_,hd4.indirect,?_,?_,?_⟩
    · rw [hd4.inodes]
      decide
    · rw [hsize]
      decide
    · rw [hd4.root]
      exact NewName.noSlot (fun e he => ⟨(hf2.names e he).1,(hf2.names e he).2.1⟩) _
    · rw [hsize]
      decide
    · rw [hd4.blocks,hd4.max,InodeType.blocks,if_neg (by decide)]
  obtain ⟨t,hstep6,hdirty⟩ := createLast_total h5 (by rw [hd4.inodes]; decide) hu
  have hexec : exec fsStep lastActions freshTestfs = some t := by
    refine exec_trans (exec_trans (exec_trans (exec_trans ?_ hexec2) ?_) hexec4) ?_
    · exact (exec_singleton _ _).trans hstep1
    · exact (exec_singleton _ _).trans hstep3
    · exact exec_trans ((exec_singleton _ _).trans hstep5) ((exec_singleton _ _).trans hstep6)
  obtain ⟨n,dev',s₀,hmake,hmount,hreach⟩ := freshTestfs_reachable
  have hreach' := reachable_of_exec hreach (fun _ _ _ => trivial) hexec
  exact ⟨t,hexec,⟨n,dev',s₀,hmake,hmount,hreach'⟩,fun hnone => hnone _ hdirty,
    quitWith_of_dirty hdirty⟩

end LastBlock
end OsLabs

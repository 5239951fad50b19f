import Mathlib.Data.BitVec
import Mathlib.Tactic
import OsLabs.Bytes
import OsLabs.Holdings
import OsLabs.Wlp
import OsLabs.FsModel
import OsLabs.DirModel
import OsLabs.FsVolume
import OsLabs.FsAccounts
import OsLabs.FsRemoval
import OsLabs.Dirents
import OsLabs.DirMap
import OsLabs.DirOps
import OsLabs.FsCreation
import OsLabs.RootedTree
import OsLabs.FsTree
import OsLabs.FsCommands
import OsLabs.FsReading
import OsLabs.FsWriting
import OsLabs.FsMaking
import OsLabs.WriteEffects
import OsLabs.FsSessions

/-!
# Creations that succeed

A name that is not there can be created as long as an inode is free, the entry fits into its block
and the blocks that are needed are there: one for the entries of a new directory, and one for the
entry itself if it is the first of its block.
-/

namespace OsLabs
namespace FsGrowth

open Bytes FsModel DirModel FsVolume FsAccounts FsRemoval Dirents DirMap DirOps FsCreation
open Holdings FsTree FsCommands FsReading FsWriting FsImage FsMaking FsSessions WriteEffects

section Creation

variable {s : Testfs} {c : Memory} {v : Volume} {E : ℕ → List Entry} {d : ℕ} {es : List Entry}
  {type : InodeType} {name : CString}

/-- There is room for a new file or directory in the directory `d`. -/
structure Room (v : Volume) (d : ℕ) (es : List Entry) (type : InodeType) (name : CString) :
    Prop where
  new : lookup name es = none
  free : ∃ k < nrInodes, v.inodeUsed k = false
  direct : sizes es < nrDirectBlocks*blockSize
  fits : place name es % blockSize + (name.1.length + 9) ≤ blockSize
  blocks : v.usedBlocks.toNat + InodeType.blocks type + demand v d (place name es/blockSize) ≤
    v.maxBlocks.toNat

/-- There is an inode left when not all are counted. -/
theorem exists_free_inode (h : Tree v E) (hlt : v.usedInodes.toNat < nrInodes) :
    ∃ k < nrInodes, v.inodeUsed k = false := by
  by_contra hno
  push Not at hno
  have hall : held (Finset.range nrInodes) false v.inodeUsed = nrInodes := by
    rw [held_eq_card,Finset.card_range]
    intro k hk
    exact hno k (Finset.mem_range.mp hk)
  rw [h.count,hall] at hlt
  exact lt_irrefl _ hlt

theorem createContents_returns {i : ℕ} (hm : i ∈ c.dirty) (h : Valid s c v) (hi : Held c i)
    (hz : type = .dir → IsDir v i []) (p : ℕ) : Returns (createContents type p i) s :=
  Returns.ite (fun hdir => testfsCreateEmptyDir_returns hm h hi (hz hdir) p) fun _ => Returns.pure _ s

theorem testfsCreateFileOrDir_total (hm : d ∈ c.dirty) (h : Valid s c v)
    (hheld : Held c d) (hd : IsDir v d es) (hused : v.inodeUsed d = true)
    (hfresh : ∀ i, v.inodeUsed i = false → v.inode i = Dinode.zero) (hroom : Room v d es type name) :
    Total (testfsCreateFileOrDir d type name) s (fun r t => r = 0 ∧
      t.sb.usedBlockCount.toNat = v.usedBlocks.toNat + InodeType.blocks type +
        demand v d (place name es/blockSize)) := by
  obtain ⟨hnew,⟨k,hk,hfree⟩,hdirect,hfits,hblocks⟩ := hroom
  have hplace : place name es < nrDirectBlocks*blockSize := (place_le name es).trans_lt hdirect
  have hlen : name.1.length < 2^30 := by
    simp only [blockSize] at hfits
    omega
  refine Total.bind ((testfsDirNameToInodeNr_total h hheld hd name).mono ?_)
  rintro r t ⟨rfl,hr⟩
  rw [hnew] at hr
  obtain rfl : r = Errno.noent.ret := hr
  rw [if_neg (by decide)]
  refine Total.bind (((testfsCreateInode_returns h.stands hk hfree type).total
    (testfsCreateInode_valid h type)).mono ?_)
  intro r1 t1 h1
  cases r1 with
  | none => exact absurd (h1.2 k hk) (by simp [hfree])
  | some i =>
    obtain ⟨v1,hv1,ho⟩ := h1
    have hz := hfresh i ho.unused
    have hdi : d ≠ i := by
      rintro rfl
      rw [ho.unused] at hused
      cases hused
    have hmi : i ∈ ((c.touch i).hold i).dirty := Set.mem_insert i _
    have hmd : d ∈ ((c.touch i).hold i).dirty := Set.mem_insert_of_mem i hm
    have hheldi := held_hold (c.touch i) i
    have hheldd : Held ((c.touch i).hold i) d := Held.hold (c := c.touch i) hheld i
    have hnil : type = .dir → IsDir v1 i [] := fun hdir => isDir_nil (by rw [ho.self,hz,hdir])
    have href0 : ref v1 i (slotOf 0) = 0 := by rw [ho.ref,ref_zero hz]
    have hv1used : v1.usedBlocks = v.usedBlocks := (used_congr h hv1 ho.ref).2
    refine Total.bind (((createContents_returns hmi hv1 hheldi hnil d).total
      ((createContents_spec hmi hv1 type hnil d).and
        (createContents_count hmi hv1 type hnil href0 d))).mono ?_)
    rintro r2 t2 ⟨⟨-,hdir,hfull,-⟩ | ⟨rfl,w,hw,hf,-⟩,hcount⟩
    · rw [Full,hv1used,ho.maxBlocks] at hfull
      rw [InodeType.blocks,if_pos hdir] at hblocks
      omega
    have hdw : IsDir w d es := by
      refine isDir_congr hd ?_ ?_
      · rw [hf.inode d hdi,ho.inode d hdi]
      · rw [hf.logical d hdi,ho.logical]
    have hwused : w.usedBlocks.toNat = v.usedBlocks.toNat + InodeType.blocks type := by
      rw [← hw.stands.usedBlocks_eq,hcount le_rfl,hv1used]
    have hdemand : demand w d (place name es/blockSize) = demand v d (place name es/blockSize) := by
      rw [demand,demand,hf.ref d hdi,ho.ref]
    rw [if_neg (by omega)]
    refine Total.bind (((testfsAddDirent_returns hmd hw hheldd hdw hlen i).total
      ((testfsAddDirent_spec hmd hw hdw hnew i).and
        (testfsAddDirent_effects hw hdw name i))).mono ?_)
    rintro r3 t3 ⟨⟨-,-,hwhy⟩ | ⟨w3,hr3,h3,-⟩,-,hcount3⟩
    · exfalso
      rcases hwhy with hlong | hbig | hfar | ⟨hfull,hzero⟩
      · omega
      · rw [show (⟨BitVec.ofNat 32 i,name⟩ : Entry).size = 8 + (name.1.length + 1) from rfl] at hbig
        omega
      · exact absurd hplace (Nat.not_lt.mpr hfar)
      · rw [Full,hwused,hf.maxBlocks,ho.maxBlocks] at hfull
        rw [← hdemand,demand,if_pos hzero] at hblocks
        omega
    rw [if_neg (by omega)]
    refine Total.bind (((testfsSyncInode_returns h3.stands hheldd).total
      (testfsSyncInode_valid h3 d)).mono ?_)
    intro _ t4 h4
    refine Total.bind (((testfsSyncInode_returns h4.stands hheldi).total
      (testfsSyncInode_valid h4 i)).mono ?_)
    intro _ t5 h5
    have hclean : ¬Dirty t5 i := fun hx => (h5.stands.memory.dirty_mem i hx).2 rfl
    refine Total.bind (((testfsPutInode_returns h5.stands hheldi hclean).total
      (testfsPutInode_valid h5 i)).mono ?_)
    intro _ t6 h6
    have hcount6 := hcount3 hr3 hplace
    rw [h3.stands.usedBlocks_eq,hwused,hdemand] at hcount6
    refine Total.pure ⟨rfl,?_⟩
    rw [h6.stands.usedBlocks_eq]
    exact hcount6

/-- `cmd_create` and `cmd_mkdir` of a new name when there is room for it. -/
theorem cmdCreateType_total (h : Ready s c v E) (hroom : Room v c.curDir (E c.curDir) type name) :
    Total (cmdCreateType type [name]) s (fun r t => r = (0,.nothing) ∧ ∃ i w,
      Made c.curDir (E c.curDir) name type i v w ∧
      Ready t (c.clean c.curDir) w (madeEntries E c.curDir name type i) ∧
      w.usedBlocks.toNat = v.usedBlocks.toNat + InodeType.blocks type +
        demand v c.curDir (place name (E c.curDir)/blockSize)) := by
  have ht := h.touch
  have htotal : Total (cmdCreateType type [name]) s (fun r t => r = (0,.nothing) ∧
      t.sb.usedBlockCount.toNat = v.usedBlocks.toNat + InodeType.blocks type +
        demand v c.curDir (place name (E c.curDir)/blockSize)) := by
    refine Total.bind (Total.get ?_)
    rw [h.curDir_eq]
    refine Total.bind ((testfsCreateFileOrDir_total (Set.mem_insert ..) ht.valid ht.held h.isDir
      (h.tree.marked_of_directory h.curDir)
      (fun i hi => h.tree.unmarked i (by rw [Marked,hi]; simp)) hroom).mono ?_)
    rintro r t ⟨rfl,hcount⟩
    exact Total.pure ⟨rfl,hcount⟩
  refine (htotal.and_wlp (cmdCreateType_spec h type name)).mono ?_
  rintro r t ⟨⟨rfl,hcount⟩,⟨hneg,-⟩ | ⟨-,-,i,w,hmade,hw⟩⟩
  · exact absurd hneg (lt_irrefl 0)
  · rw [hw.valid.stands.usedBlocks_eq] at hcount
    exact ⟨rfl,i,w,hmade,hw,hcount⟩

/-- The new name is in the directory. -/
theorem lookup_made {w : Volume} {i : ℕ} (h : Tree v E) (hd : Directory v d)
    (hnew : lookup name (E d) = none) (hm : Made d (E d) name type i v w) :
    lookup name (madeEntries E d name type i d) = some ⟨BitVec.ofNat 32 i,name⟩ := by
  rw [madeEntries_parent _ _ _ (ne_of_made h hd hm),
    lookup_addEntry (h.distinct d) (live_ofNat_inode hm.lt _) hnew,if_pos rfl]

/-- All entries are live, and none of them has the name. -/
def NewName (name : CString) (es : List Entry) : Prop := ∀ e ∈ es, e.live = true ∧ e.name ≠ name

theorem NewName.noSlot (h : NewName name es) (len : ℤ) : ∀ x ∈ es, stopsAt name len x = false := by
  intro x hx
  obtain ⟨hlive,hname⟩ := h x hx
  rw [stopsAt,if_pos hlive,decide_eq_false hname]

theorem NewName.lookup (h : NewName name es) : lookup name es = none :=
  lookup_eq_none_iff.mpr fun e he _ => (h e he).2

theorem NewName.place (h : NewName name es) : place name es = sizes es := by
  rw [DirOps.place]
  cases hf : firstEntry (stopsAt name (toInt32 (name.1.length + 1))) es 0 with
  | mk f k =>
  cases f with
  | some x =>
    obtain ⟨pre,post,rfl,hx,-,-⟩ := firstEntry_some hf
    rw [h.noSlot _ x (by simp)] at hx
    cases hx
  | none =>
    obtain ⟨-,hk⟩ := firstEntry_none hf
    exact hk.trans (Nat.zero_add _)

theorem NewName.addEntry (h : NewName name es) (e : Entry) : addEntry e es = es ++ [e] :=
  addEntry_append fun y hy hc => by
    rw [(h y hy).1] at hc
    cases hc.1

theorem demand_eq_zero (hd : IsDir v d es) {n : ℕ} (hn : n*blockSize < sizes es) :
    demand v d n = 0 := by
  have hstop := hd.laid.stop_eq
  rw [Nat.zero_add] at hstop
  exact if_neg (ref_of_laid_lt hd.laid (Nat.zero_le _) (hstop ▸ hn))

theorem demand_le_one (v : Volume) (d n : ℕ) : demand v d n ≤ 1 := by
  rw [demand]
  split <;> omega

/-- A new name goes to the end of the current directory. -/
theorem cmdCreateType_appends (h : Ready s c v E) (type : InodeType) (hcur : c.curDir = d)
    (hnew : NewName name (E d)) (hinodes : v.usedInodes.toNat < nrInodes)
    (hdirect : sizes (E d) < nrDirectBlocks*blockSize)
    (hfits : sizes (E d) % blockSize + (name.1.length + 9) ≤ blockSize)
    (hblocks : v.usedBlocks.toNat + InodeType.blocks type + demand v d (sizes (E d)/blockSize) ≤
      v.maxBlocks.toNat) :
    ∃ r t i w, (cmdCreateType type [name]).run s = some (r,t) ∧ r = (0,.nothing) ∧
      Made d (E d) name type i v w ∧ d ≠ i ∧ Ready t (c.clean d) w (madeEntries E d name type i) ∧
      madeEntries E d name type i d = E d ++ [⟨BitVec.ofNat 32 i,name⟩] ∧
      w.usedBlocks.toNat = v.usedBlocks.toNat + InodeType.blocks type +
        demand v d (sizes (E d)/blockSize) := by
  subst hcur
  have hroom : Room v c.curDir (E c.curDir) type name := by
    refine ⟨hnew.lookup,exists_free_inode h.tree hinodes,hdirect,?_,?_⟩
    · rw [hnew.place]
      exact hfits
    · rw [hnew.place]
      exact hblocks
  obtain ⟨r,t,hrun,hr,i,w,hmade,ht,hcount⟩ := cmdCreateType_total h hroom
  have hdi := ne_of_made h.tree h.curDir hmade
  rw [hnew.place] at hcount
  refine ⟨r,t,i,w,hrun,hr,hmade,hdi,ht,?_,hcount⟩
  rw [madeEntries_parent _ _ _ hdi,hnew.addEntry]

end Creation

/-! ## A file on a new file system -/

/-- "f" -/
def fileName : CString := ⟨[102],by decide⟩

theorem rootEntries_zero : rootEntries 0 = [⟨0,dot⟩,⟨0,dotdot⟩] := Function.update_self ..

theorem sizes_rootEntries : sizes (rootEntries 0) = 21 := by
  rw [rootEntries_zero]
  rfl

theorem newName_rootEntries {name : CString} (h1 : dot ≠ name) (h2 : dotdot ≠ name) :
    NewName name (rootEntries 0) := by
  rw [rootEntries_zero]
  intro e he
  rcases List.mem_pair.mp he with rfl | rfl
  · exact ⟨by decide,h1⟩
  · exact ⟨by decide,h2⟩

theorem demand_root {v : Volume} (h : Tree v rootEntries) :
    demand v 0 (sizes (rootEntries 0)/blockSize) = 0 := by
  rw [sizes_rootEntries]
  exact demand_eq_zero (h.isDir 0 h.root) (by rw [sizes_rootEntries]; decide)

def createFile : FsSessions.Action := .command .create [fileName]

/-- The inode `i` is a new file in the root directory, and nothing else has been made. -/
structure OnlyFile (i : ℕ) (c : Memory) (v : Volume) (E : ℕ → List Entry) : Prop where
  curDir : c.curDir = 0
  dirty : c.dirty = ∅
  root : E 0 = rootEntries 0 ++ [⟨BitVec.ofNat 32 i,fileName⟩]
  entry : lookup fileName (E 0) = some ⟨BitVec.ofNat 32 i,fileName⟩
  ne : i ≠ 0
  lt : i < nrInodes
  self : v.inode i = { Dinode.zero with iType := InodeType.file.code }
  usedInodes : v.usedInodes.toNat = 2
  usedBlocks : v.usedBlocks.toNat = 1
  maxBlocks : v.maxBlocks.toNat = 128

theorem onlyFile_exists : ∃ i r t c v E, (cmdCreate [fileName]).run freshTestfs = some (r,t) ∧
    r = (0,.nothing) ∧ Ready t c v E ∧ OnlyFile i c v E := by
  obtain ⟨dev,v,hready,hn⟩ := freshTestfs_ready
  have hnew : NewName fileName (rootEntries 0) := newName_rootEntries (by decide) (by decide)
  have hdemand := demand_root hready.tree
  have hmax : v.maxBlocks.toNat = 128 := by rw [hn.maxBlocks]; rfl
  obtain ⟨r,t,i,w,hrun,hr,hmade,hi,ht,happ,hused⟩ := cmdCreateType_appends hready .file
    (d := 0) rfl hnew (by rw [hn.usedInodes]; decide) (by rw [sizes_rootEntries]; decide)
    (by rw [sizes_rootEntries]; decide) (by rw [hdemand,hn.usedBlocks,hmax]; decide)
  refine ⟨i,r,t,_,w,_,hrun,hr,ht,?_⟩
  exact
    { curDir := rfl
      dirty := Set.empty_sdiff _
      root := happ
      entry := lookup_made hready.tree hready.curDir hnew.lookup hmade
      ne := hi.symm
      lt := hmade.lt
      self := hmade.file (by decide)
      usedInodes := by
        rw [hmade.usedInodes,hn.usedInodes]
        rfl
      usedBlocks := by
        rw [hused,hdemand,hn.usedBlocks]
        rfl
      maxBlocks := by rw [hmade.maxBlocks,hmax] }

theorem fileTestfs_isSome : (fsStep freshTestfs createFile).isSome = true := by
  obtain ⟨i,r,t,c,v,E,hrun,-⟩ := onlyFile_exists
  have hstep : fsStep freshTestfs createFile = some t := step_of_run hrun
  rw [hstep]
  rfl

/-- The smallest file system with one empty file. -/
def fileTestfs : Testfs := (fsStep freshTestfs createFile).get fileTestfs_isSome

theorem fileTestfs_step : fsStep freshTestfs createFile = some fileTestfs :=
  (Option.some_get _).symm

theorem fileTestfs_reachable : FsReachable fileTestfs :=
  FsRun.step freshTestfs_reachable trivial fileTestfs_step

theorem fileTestfs_created : ∃ i c E,
    (cmdCreate [fileName]).run freshTestfs = some ((0,.nothing),fileTestfs) ∧
    Ready fileTestfs c (volume fileTestfs) E ∧ OnlyFile i c (volume fileTestfs) E := by
  obtain ⟨i,r,t,c,v,E,hrun,rfl,hready,hfile⟩ := onlyFile_exists
  have hstep : fsStep freshTestfs createFile = some t := step_of_run hrun
  obtain rfl : fileTestfs = t := Option.some.inj (fileTestfs_step.symm.trans hstep)
  obtain rfl := hready.valid.stands.volume_eq
  exact ⟨i,c,E,hrun,hready,hfile⟩

theorem fileTestfs_ready : ∃ i c E, Ready fileTestfs c (volume fileTestfs) E ∧
    OnlyFile i c (volume fileTestfs) E := by
  obtain ⟨i,c,E,-,h⟩ := fileTestfs_created
  exact ⟨i,c,E,h⟩

section Samples

variable {i : ℕ} {c : Memory} {v : Volume} {E : ℕ → List Entry}

theorem needed_le_two (v : Volume) (i n : ℕ) : needed v i n ≤ 2 := by
  rw [needed]
  split
  · exact Nat.zero_le _
  · split <;> omega

/-- Every block of the file can be written. -/
theorem OnlyFile.fits (h : OnlyFile i c v E) (j : ℕ) {n : ℕ} (hn : n < nrLogical) : Fits v j n := by
  have hneed := needed_le_two v j n
  have hused := h.usedBlocks
  have hmax := h.maxBlocks
  exact ⟨hn,by omega⟩

theorem OnlyFile.sizes_root (h : OnlyFile i c v E) : sizes (E 0) = 31 := by
  rw [h.root,sizes_append,sizes_rootEntries]
  rfl

theorem OnlyFile.newName (h : OnlyFile i c v E) {name : CString} (h1 : dot ≠ name)
    (h2 : dotdot ≠ name) (h3 : fileName ≠ name) : NewName name (E 0) := by
  rw [h.root]
  intro e he
  rcases List.mem_append.mp he with he | he
  · exact newName_rootEntries h1 h2 e he
  · obtain rfl := List.mem_singleton.mp he
    exact ⟨live_ofNat_inode h.lt _,h3⟩

end Samples

end FsGrowth
end OsLabs

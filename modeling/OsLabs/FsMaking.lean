import Mathlib.Data.BitVec
import Mathlib.Tactic
import OsLabs.Bytes
import OsLabs.BitmapModel
import OsLabs.Wlp
import OsLabs.Holdings
import OsLabs.FsModel
import OsLabs.DirModel
import OsLabs.FsVolume
import OsLabs.FsAccounts
import OsLabs.Dirents
import OsLabs.DirMap
import OsLabs.DirOps
import OsLabs.FsCreation
import OsLabs.RootedTree
import OsLabs.FsTree
import OsLabs.FsCommands
import OsLabs.FsReading
import OsLabs.FsWriting
import OsLabs.WriteEffects
import OsLabs.FsImage

/-!
# Making an image

`mktestfs` zeroes the free maps and the inode blocks, mounts the image, and makes the root
directory in inode 0. It returns for every size from 1 to 8192 megabytes, and the image that it
makes is ready to be mounted.
-/

namespace OsLabs
namespace FsMaking

open Bytes BitmapModel FsModel DirModel FsVolume FsAccounts Dirents DirMap DirOps FsCreation
open Holdings RootedTree FsTree FsCommands FsReading FsWriting FsImage WriteEffects

/-! ## The blank image -/

section Blank

theorem block_zeroBlocks (dev : Device) (start n b : ℕ) :
    (dev.zeroBlocks start n).block b =
      if start ≤ b ∧ b < start + n then fun _ => 0 else dev.block b := by
  induction n with
  | zero => rw [Device.zeroBlocks,if_neg (by omega)]
  | succ n ih =>
    rw [Device.zeroBlocks]
    by_cases hb : b = start + n
    · rw [hb,block_write_self,if_pos (by omega)]
    · rw [block_write_of_ne _ _ hb,ih]
      by_cases hin : start ≤ b ∧ b < start + n
      · rw [if_pos hin,if_pos (by omega)]
      · rw [if_neg hin,if_neg (by omega)]

theorem size_zeroBlocks (dev : Device) (start n : ℕ) (hn : 0 < n) :
    (dev.zeroBlocks start n).size = max dev.size (start + n) := by
  induction n with
  | zero => omega
  | succ n ih =>
    rw [Device.zeroBlocks,Device.write]
    rcases Nat.eq_zero_or_pos n with rfl | hpos
    · rfl
    · simp only [ih hpos]
      omega

theorem size_makeDevice (m : ℕ) : (makeDevice m).size = 146 := by
  simp only [makeDevice,Device.write,inodeFreemapSize,blockFreemapSize,nrInodeBlocks]
  rw [size_zeroBlocks _ _ _ (by norm_num),size_zeroBlocks _ _ _ (by norm_num),
    size_zeroBlocks _ _ _ (by norm_num)]
  rfl

theorem block_makeDevice_zero (m : ℕ) :
    (makeDevice m).block 0 = copyIn (fun _ => 0) 0 (superBlockOf m).bytes :=
  block_write_self ..

theorem block_makeDevice (m : ℕ) {b : ℕ} (hb : b ≠ 0) : (makeDevice m).block b = fun _ => 0 := by
  simp only [makeDevice]
  rw [block_write_of_ne _ _ hb,block_zeroBlocks,block_zeroBlocks,block_zeroBlocks,
    block_write_of_ne _ _ hb]
  simp only [ite_self]

/-- The volume without any file. -/
def blank (m : ℕ) : Volume where
  inode := fun _ => Dinode.zero
  disk := fun _ => Dinode.zero
  block := fun _ _ => 0
  inodeUsed := fun _ => false
  blockUsed := fun _ => false
  usedInodes := 0
  usedBlocks := 0
  maxBlocks := BitVec.ofNat 64 m

theorem superBlock_makeDevice (m : ℕ) :
    SuperBlock.load ((makeDevice m).block 0) = superBlockOf m := by
  rw [block_makeDevice_zero,SuperBlock.load_copyIn]

theorem formatted_makeDevice (m : ℕ) : Formatted (makeDevice m) where
  inodeFreemapStart := by rw [superBlock_makeDevice]; rfl
  blockFreemapStart := by rw [superBlock_makeDevice]; rfl
  inodeBlocksStart := by rw [superBlock_makeDevice]; rfl
  dataBlocksStart := by rw [superBlock_makeDevice]; rfl
  sized := by rw [size_makeDevice]

theorem bits_zero {b : Bitmap} (h : ∀ k < b.nbits, b.v (k/8) = 0) : bits b = fun _ => false := by
  have hz : (0 : Byte) = 0#8 := rfl
  funext k
  rw [bits]
  by_cases hk : k < b.nbits
  · rw [isset_eq,h k hk,hz,BitVec.getLsbD_zero,Bool.and_false]
  · rw [decide_eq_false hk,Bool.false_and]

theorem volume_makeDevice (m : ℕ) : volume (loaded (makeDevice m)) = blank m := by
  have hdisk : diskView (makeDevice m) = fun _ => Dinode.zero := by
    funext i
    have hb : 18 + i/inodesPerBlock ≠ 0 := Nat.ne_of_gt (Nat.add_pos_left (by norm_num) _)
    rw [diskView,diskInode,block_makeDevice m hb,Dinode.load_zero,ite_self]
  have hinode : inodeView (loaded (makeDevice m)) = fun _ => Dinode.zero := by
    rw [← hdisk]
    rfl
  have hblock : ∀ b, (if dataStart ≤ b then (makeDevice m).block b else fun _ => 0) =
      fun _ => 0 := by
    intro b
    by_cases hb : dataStart ≤ b
    · rw [if_pos hb,block_makeDevice m (by simp only [dataStart] at hb; omega)]
    · rw [if_neg hb]
  have hsb : (loaded (makeDevice m)).sb = superBlockOf m := superBlock_makeDevice m
  have hmap : ∀ start, 0 < start → ∀ k, regionOf (makeDevice m) start k = 0 := by
    intro start hstart k
    rw [regionOf,block_makeDevice m (Nat.ne_of_gt (Nat.add_pos_left hstart _))]
  simp only [volume,hinode,hsb]
  rw [bits_zero (b := (loaded (makeDevice m)).inodeFreemap) fun k _ => hmap 1 (by omega) _,
    bits_zero (b := (loaded (makeDevice m)).blockFreemap) fun k _ => hmap 2 (by omega) _]
  simp only [loaded,hdisk,hblock]
  rfl

theorem ref_blank (m : ℕ) : ref (blank m) = fun _ _ => 0 := by
  funext i l
  exact ref_zero rfl l

theorem valid_blank {m : ℕ} (hm : m ≤ nrBlocks) :
    Valid (loaded (makeDevice m)) (fresh (makeDevice m)) (blank m) := by
  have hs := stands_loaded (formatted_makeDevice m)
  rw [volume_makeDevice] at hs
  have hmax : (BitVec.ofNat 64 m).toNat = m := by
    simp only [nrBlocks] at hm
    rw [BitVec.toNat_ofNat]
    omega
  refine ⟨hs,?_,?_⟩
  · rw [ref_blank]
    refine ⟨⟨fun b => ?_,?_⟩,?_,?_,Nat.zero_le _,?_,fun _ _ _ => rfl⟩
    · refine iff_of_false ?_ ?_
      · rintro ⟨-,-,hused⟩
        cases hused
      · rintro ⟨h0,-,-,hb⟩
        exact h0 hb.symm
    · intro i k j l h0
      exact absurd rfl h0
    · exact fun i => (held_eq_zero.mpr fun _ _ => rfl).symm
    · exact (held_eq_zero.mpr fun _ _ => rfl).symm
    · show (BitVec.ofNat 64 m).toNat ≤ _
      rw [hmax]
      exact hm
  · intro i l h0
    rw [ref_blank] at h0
    exact absurd rfl h0

end Blank

/-! ## The root directory -/

/-- The entries of the root directory of a new image. -/
def rootEntries : ℕ → List Entry :=
  Function.update (fun _ => []) 0 [⟨0,dot⟩,⟨0,dotdot⟩]

section Root

variable {s : Testfs} {c : Memory} {v w : Volume} {i : ℕ}

theorem edge_rootEntries (d : ℕ) (n : CString) (i : ℕ) : ¬Edge rootEntries d n i := by
  rintro ⟨e,he,-,h1,h2,hn,-⟩
  rw [rootEntries] at he
  by_cases hd : d = 0
  · rw [hd,Function.update_self] at he
    rcases List.mem_cons.mp he with rfl | he
    · exact h1 hn.symm
    · rw [List.mem_singleton.mp he] at hn
      exact h2 hn.symm
  · rw [Function.update_of_ne hd] at he
    cases he

theorem tree_root (hdir : IsDir w 0 [⟨0,dot⟩,⟨0,dotdot⟩])
    (hother : ∀ j, j ≠ 0 → w.inode j = Dinode.zero)
    (hused : w.inodeUsed = Function.update (fun _ => false) 0 true) (hn : w.usedInodes = 1) :
    Tree w rootEntries := by
  have hself : rootEntries 0 = [⟨0,dot⟩,⟨0,dotdot⟩] := Function.update_self ..
  have hnil : ∀ d, d ≠ 0 → rootEntries d = [] := fun d hd => Function.update_of_ne hd ..
  have honly : ∀ d, Directory w d → d = 0 := by
    intro d hd
    by_contra h0
    rw [Directory,hother d h0] at hd
    exact absurd hd (by decide)
  have hmarked : ∀ x, Marked w x ↔ x = 0 := by
    intro x
    rw [Marked,hused]
    by_cases hx : x = 0
    · simp [hx]
    · simp [hx]
  refine ⟨?_,?_,?_,hdir.iType,?_,?_,?_,?_,?_,?_,?_⟩
  · intro d hd
    rw [honly d hd,hself]
    exact hdir
  · intro d hd
    exact hnil d fun h0 => hd (h0 ▸ hdir.iType)
  · intro d
    by_cases hd : d = 0
    · rw [hd,hself]
      exact List.pairwise_pair.mpr fun _ _ => (by decide : dot ≠ dotdot)
    · rw [hnil d hd]
      exact List.Pairwise.nil
  · intro x hx
    exact hother x fun h0 => hx ((hmarked x).mpr h0)
  · intro x hx
    rw [(hmarked x).mp hx]
    simp only [nrInodes]
    norm_num
  · have hmem : 0 ∈ Finset.range nrInodes := Finset.mem_range.mpr (by simp only [nrInodes]; norm_num)
    have hnone : held (Finset.range nrInodes) false (fun _ => false) = 0 :=
      held_eq_zero.mpr fun _ _ => rfl
    rw [hn,hused,held_update_of_eq (f := fun _ => false) hmem rfl (by simp),hnone]
    rfl
  · exact (isTree_root 0).congr hmarked fun a m x =>
      ⟨fun he => edge_rootEntries a m x he,False.elim⟩
  · intro d hd
    rw [honly d hd,hself]
    decide
  · rw [hself]
    decide
  · intro d n x he
    exact absurd he (edge_rootEntries d n x)

/-- The two entries of a new directory can always be tried. -/
theorem testfsCreateEmptyDir_returns (hm : i ∈ c.dirty) (h : Valid s c v) (hi : Held c i)
    (hz : IsDir v i []) (p : ℕ) : Returns (testfsCreateEmptyDir p i) s := by
  refine Returns.bind (assertDir_returns h.stands hi hz.iType) ((assertDir_spec h.stands i).mono ?_)
  rintro _ t ⟨rfl,-⟩
  refine Returns.bind (testfsAddDirent_returns hm h hi hz (by decide) i)
    ((testfsAddDirent_spec hm h hz rfl i).mono ?_)
  rintro r t1 hr
  refine Returns.ite (fun _ => Returns.pure _ t1) fun hpos => ?_
  obtain ⟨w,-,hw,hrw⟩ := hr.resolve_left fun hc => hpos hc.1
  have hnew : lookup dotdot (addEntry ⟨BitVec.ofNat 32 i,dot⟩ []) = none := by
    rw [lookup_eq_none_iff]
    intro e he _
    rw [List.mem_singleton.mp he]
    exact (by decide : dot ≠ dotdot)
  refine Returns.bind (testfsAddDirent_returns hm hw hi hrw.isDir (by decide) p)
    ((testfsAddDirent_spec hm hw hrw.isDir hnew p).mono ?_)
  rintro r t2 hr
  refine Returns.ite (fun hneg => ?_) fun _ => Returns.pure _ t2
  rcases hr with ⟨-,-,hwhy⟩ | ⟨-,hge,-⟩
  · exact absurd hwhy (room_for_dotdot hrw.isDir p)
  · omega

/-- The counters of a new file system of `m` blocks. -/
structure NewCounts (m : ℕ) (v : Volume) : Prop where
  usedInodes : v.usedInodes = 1
  usedBlocks : v.usedBlocks.toNat = 1
  maxBlocks : v.maxBlocks = BitVec.ofNat 64 m

/-- `testfs_make_root_dir` on a blank volume with room for one block. -/
theorem testfsMakeRootDir_total {m : ℕ} (h : Valid s c (blank m)) (hc : c.count = fun _ => none)
    (h1 : 0 < m) (h2 : m ≤ nrBlocks) :
    Total testfsMakeRootDir s (fun _ t => ∃ w c', Valid t c' w ∧ c'.count = (fun _ => none) ∧
      Tree w rootEntries ∧ w.disk = w.inode ∧ NewCounts m w) := by
  have hcounted : c.Counted := by
    intro i k hk
    rw [hc] at hk
    cases hk
  have hpos : 0 < nrInodes := by
    simp only [nrInodes]
    norm_num
  refine Total.bind (((testfsCreateInode_returns h.stands hpos rfl _).total
    (testfsCreateInode_valid h .dir)).mono ?_)
  intro r t ht
  cases r with
  | none => exact absurd (ht.2 0 hpos) (by simp [blank])
  | some i =>
    obtain ⟨v1,hv1,ho⟩ := ht
    obtain rfl : i = 0 := by
      by_contra h0
      have := ho.least 0 (by omega)
      cases this
    have hm : 0 ∈ ((c.touch 0).hold 0).dirty := Set.mem_insert 0 _
    have hheld := held_hold (c.touch 0) 0
    have hnil : IsDir v1 0 [] := isDir_nil ho.self
    have hused := (used_congr h hv1 ho.ref).2
    have hfull : ¬Full v1 := by
      rw [Full,ho.maxBlocks,hused]
      have hmax : (BitVec.ofNat 64 m).toNat = m := by
        simp only [nrBlocks] at h2
        rw [BitVec.toNat_ofNat]
        omega
      show ¬(BitVec.ofNat 64 m).toNat ≤ 0
      omega
    have hcontents : Returns (createContents .dir 0 0) t :=
      testfsCreateEmptyDir_returns hm hv1 hheld hnil 0
    have href0 : ref v1 0 (slotOf 0) = 0 := by rw [ho.ref,ref_zero rfl]
    refine Total.bind ((hcontents.total
      ((createContents_spec hm hv1 .dir (fun _ => hnil) 0).and
        (createContents_count hm hv1 .dir (fun _ => hnil) href0 0))).mono ?_)
    rintro r t1 ⟨⟨-,-,hf,-⟩ | ⟨rfl,w,hw,hf,-,hdir⟩,hblocks⟩
    · exact absurd hf hfull
    rw [if_neg (by omega)]
    refine Total.bind (((testfsSyncInode_returns hw.stands hheld).total
      (testfsSyncInode_valid hw 0)).mono ?_)
    intro _ t2 ht2
    have hclean : ¬Dirty t2 0 := fun hx => (ht2.stands.memory.dirty_mem 0 hx).2 rfl
    have hheld2 : Held (((c.touch 0).hold 0).clean 0) 0 := hheld
    refine Total.bind (((testfsPutInode_returns ht2.stands hheld2 hclean).total
      (testfsPutInode_valid ht2 0)).mono ?_)
    intro _ t3 ht3
    have hcount := congrArg Memory.count (release_hold (c := c.touch 0) hcounted 0)
    refine Total.pure ⟨w.sync 0,_,ht3,hcount.trans hc,?_,?_,?_,?_,hf.maxBlocks.trans ho.maxBlocks⟩
    · refine tree_root (isDir_congr (hdir rfl) rfl rfl) ?_ ?_ ?_
      · intro j hj
        show w.inode j = _
        rw [hf.inode j hj,ho.inode j hj]
        rfl
      · show w.inodeUsed = _
        rw [hf.inodeUsed,ho.inodeUsed]
        rfl
      · show w.usedInodes = _
        rw [hf.usedInodes,ho.usedInodes]
        rfl
    · have hdisk : v1.disk = fun _ => Dinode.zero := ho.disk
      show Function.update w.disk 0 (w.inode 0) = w.inode
      funext j
      by_cases hj : j = 0
      · rw [hj,Function.update_self]
      · rw [Function.update_of_ne hj,hf.disk,hdisk,hf.inode j hj,ho.inode j hj]
        rfl
    · show w.usedInodes = 1
      rw [hf.usedInodes,ho.usedInodes]
      rfl
    · show w.usedBlocks.toNat = 1
      rw [← hw.stands.usedBlocks_eq,hblocks le_rfl,hused]
      rfl

end Root

/-- The root directory is made and the image is closed. -/
theorem makeImage_total {m : ℕ} (h1 : 0 < m) (h2 : m ≤ nrBlocks) :
    ∃ r s t v, testfsMakeRootDir.run (loaded (makeDevice m)) = some (r,s) ∧
      testfsCloseSuperBlock.run s = some ((),t) ∧ Valid (loaded t.dev) (fresh t.dev) v ∧
      Tree v rootEntries ∧ v.disk = v.inode ∧ NewCounts m v := by
  obtain ⟨r,s,hs,v,c,hv,hc,ht,hsync,hcounts⟩ := testfsMakeRootDir_total (valid_blank h2) rfl h1 h2
  obtain ⟨_,t,hclose,hvalid⟩ :=
    (testfsCloseSuperBlock_returns hv.stands fun i => congrFun hc i).total
      (testfsCloseSuperBlock_valid hv)
  exact ⟨r,s,t,v,hs,hclose,valid_loaded hvalid hsync,ht,hsync,hcounts⟩

/-- `mktestfs` makes an image whose root directory has no names in it. -/
theorem mktestfs_total {n : ℕ} (h1 : 1 ≤ n) (h2 : n ≤ 8192) : ∃ dev v, mktestfs n = some dev ∧
    Valid (loaded dev) (fresh dev) v ∧ Tree v rootEntries ∧ v.disk = v.inode ∧
    NewCounts (n*2^20/blockSize) v := by
  have hm : 0 < n*2^20/blockSize ∧ n*2^20/blockSize ≤ nrBlocks := by
    simp only [blockSize,nrBlocks]
    omega
  obtain ⟨r,s,t,v,hs,hclose,hvalid⟩ := makeImage_total hm.1 hm.2
  have hinit := testfsInitSuperBlock_formatted (formatted_makeDevice (n*2^20/blockSize))
  refine ⟨t.dev,v,?_,hvalid⟩
  rw [mktestfs,if_neg (by omega)]
  exact Option.bind_eq_some_iff.mpr ⟨_,hinit,
    Option.bind_eq_some_iff.mpr ⟨(r,s),hs,Option.bind_eq_some_iff.mpr ⟨((),t),hclose,rfl⟩⟩⟩

end FsMaking
end OsLabs

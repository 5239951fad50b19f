import Mathlib.Data.BitVec
import Mathlib.Tactic
import OsLabs.Bytes
import OsLabs.BitmapModel
import OsLabs.Wlp
import OsLabs.Holdings
import OsLabs.FsModel
import OsLabs.DirModel
import OsLabs.FsVolume
import OsLabs.FsAccounts
import OsLabs.Dirents
import OsLabs.DirMap
import OsLabs.DirOps
import OsLabs.FsCreation
import OsLabs.RootedTree
import OsLabs.FsTree
import OsLabs.FsCommands
import OsLabs.FsReading
import OsLabs.FsWriting

/-!
# Images

What `testfs_init_super_block` makes of an image depends on the image alone: `loaded`. When the
inodes on the device are the ones in memory, the image of a mounted file system is loaded as the
same volume, and mounting it gives a file system that is ready. `mktestfs` makes an image with an
empty root directory, for every size that it accepts.
-/

namespace OsLabs
namespace FsImage

open Bytes BitmapModel FsModel DirModel FsVolume FsAccounts Dirents DirMap DirOps FsCreation
open Holdings RootedTree FsTree FsCommands FsReading FsWriting

/-! ## Loading -/

/-- The super block of the device has the layout of `testfs_make_super_block`. -/
structure Formatted (dev : Device) : Prop where
  inodeFreemapStart : (SuperBlock.load (dev.block 0)).inodeFreemapStart = 1
  blockFreemapStart : (SuperBlock.load (dev.block 0)).blockFreemapStart = 2
  inodeBlocksStart : (SuperBlock.load (dev.block 0)).inodeBlocksStart = 18
  dataBlocksStart : (SuperBlock.load (dev.block 0)).dataBlocksStart = 146
  sized : dataStart ≤ dev.size

/-- The file system after its image has been read. -/
def loaded (dev : Device) : Testfs where
  sb := SuperBlock.load (dev.block 0)
  dev := dev
  inodeFreemap := { nbits := 2^16, v := regionOf dev 1 }
  blockFreemap := { nbits := 2^20, v := regionOf dev 2 }
  inodes := fun _ => none
  curDir := 0

/-- The memory of a file system whose image has been read. -/
def fresh (dev : Device) : Memory where
  curDir := 0
  size := dev.size
  count := fun _ => none
  dirty := ∅

section Loading

variable {s : Testfs} {c : Memory} {v : Volume} {dev : Device}

theorem counted_fresh (dev : Device) : (fresh dev).Counted := by
  intro i k hk
  cases hk

theorem testfsInitSuperBlock_formatted (h : Formatted dev) :
    testfsInitSuperBlock dev = some (loaded dev) := by
  have h1 : (1 : BitVec 32).toNat = 1 := rfl
  have h2 : (2 : BitVec 32).toNat = 2 := rfl
  have hsized := h.sized
  simp only [dataStart] at hsized
  simp only [testfsInitSuperBlock,h.inodeFreemapStart,h.blockFreemapStart,h1,h2,inodeFreemapSize,
    blockFreemapSize]
  rw [if_pos ⟨by omega,by omega⟩]
  rfl

theorem regionOf_one {k : ℕ} (hk : k < blockSize) : regionOf dev 1 k = dev.block 1 k := by
  rw [regionOf,Nat.div_eq_of_lt hk,Nat.mod_eq_of_lt hk]

theorem coherent_loaded (h : Formatted dev) : Coherent (loaded dev) where
  inodeFreemapStart := h.inodeFreemapStart
  blockFreemapStart := h.blockFreemapStart
  inodeBlocksStart := h.inodeBlocksStart
  dataBlocksStart := h.dataBlocksStart
  inodeBits := rfl
  blockBits := rfl
  sized := h.sized
  superBlock := rfl
  inodeMap k hk := (regionOf_one hk).symm
  blockMap _ _ := rfl
  cached i inode hi := by cases hi

theorem stands_loaded (h : Formatted dev) : Stands (loaded dev) (fresh dev) (volume (loaded dev)) := by
  refine ⟨coherent_loaded h,rfl,rfl,le_rfl,fun _ => rfl,?_⟩
  rintro i ⟨inode,hi,-⟩
  cases hi

theorem formatted_of_coherent (h : Coherent s) : Formatted s.dev where
  inodeFreemapStart := by rw [h.superBlock,h.inodeFreemapStart]
  blockFreemapStart := by rw [h.superBlock,h.blockFreemapStart]
  inodeBlocksStart := by rw [h.superBlock,h.inodeBlocksStart]
  dataBlocksStart := by rw [h.superBlock,h.dataBlocksStart]
  sized := h.sized

theorem bits_congr {b b' : Bitmap} (hn : b'.nbits = b.nbits)
    (hv : ∀ k < b.nbits, b'.v (k/8) = b.v (k/8)) : bits b' = bits b := by
  funext k
  rw [bits,bits,hn]
  by_cases hk : k < b.nbits
  · rw [isset_eq,isset_eq,hv k hk]
  · rw [decide_eq_false hk,Bool.false_and,Bool.false_and]

theorem isset_of_bits {b b' : Bitmap} (hn : b'.nbits = b.nbits) (h : bits b' = bits b) {k : ℕ}
    (hk : k < b.nbits) : bitmapIsset b' k = bitmapIsset b k := by
  rw [← bits_of_lt hk,← h,bits_of_lt (hn.symm ▸ hk)]

/-- The image of a file system is loaded as the volume that the file system stands for. -/
theorem volume_loaded (h : Stands s c v) (hsync : v.disk = v.inode) :
    volume (loaded s.dev) = v := by
  have hc := h.coherent
  have hinode : inodeView (loaded s.dev) = v.inode := by
    rw [← hsync,← h.volume_eq]
    rfl
  have hused : bits (loaded s.dev).inodeFreemap = v.inodeUsed := by
    rw [← h.inodeUsed_eq]
    refine bits_congr hc.inodeBits.symm fun k hk => ?_
    rw [hc.inodeBits] at hk
    have hlt : k/8 < blockSize := by
      simp only [blockSize]
      omega
    exact (regionOf_one hlt).trans (hc.inodeMap _ hlt)
  have hblocks : bits (loaded s.dev).blockFreemap = v.blockUsed := by
    rw [← h.blockUsed_eq]
    refine bits_congr hc.blockBits.symm fun k hk => ?_
    rw [hc.blockBits] at hk
    refine hc.blockMap _ ?_
    simp only [blockSize]
    omega
  have hdisk : diskView (loaded s.dev).dev = v.disk := by
    rw [← h.volume_eq]
    rfl
  have hblock : (volume (loaded s.dev)).block = v.block := by
    rw [← h.volume_eq]
    rfl
  have hsb : (loaded s.dev).sb = s.sb := hc.superBlock
  simp only [volume] at hblock ⊢
  rw [hinode,hused,hblocks,hdisk,hblock,hsb,h.usedInodes_eq,h.usedBlocks_eq,h.maxBlocks_eq]

theorem valid_loaded (h : Valid s c v) (hsync : v.disk = v.inode) :
    Valid (loaded s.dev) (fresh s.dev) v := by
  have hs := stands_loaded (formatted_of_coherent h.stands.coherent)
  rw [volume_loaded h.stands hsync] at hs
  exact ⟨hs,h.accounts,h.backed⟩

end Loading

/-! ## Mounting -/

section Mounting

variable {s : Testfs} {c : Memory} {v : Volume} {E : ℕ → List Entry} {dev : Device}

theorem mount_ready (h : Valid (loaded dev) (fresh dev) v) (ht : Tree v E)
    (hsync : v.disk = v.inode) : ∃ s, mount dev = some s ∧ Ready s ((fresh dev).hold 0) v E := by
  have hf : Formatted dev := formatted_of_coherent h.stands.coherent
  have h0 := ht.lt_of_directory ht.root
  obtain ⟨_,s,hr,hs⟩ := (testfsGetInode_returns h.stands h0).total (testfsGetInode_valid h 0)
  refine ⟨{ s with curDir := 0 },?_,?_⟩
  · rw [mount,testfsInitSuperBlock_formatted hf,Option.bind_eq_bind,Option.bind_some,hr]
    rfl
  · have hcur : s.curDir = 0 := hs.stands.memory.curDir_eq
    have he : ({ s with curDir := 0 } : Testfs) = s := by rw [← hcur]
    rw [he]
    exact
      { valid := hs
        tree := ht
        synced := hsync
        counted := Counted.hold (counted_fresh dev) 0
        held := held_hold ..
        dirty := Set.empty_subset _
        curDir := ht.root }

/-- The image of a file system between two commands can be mounted again. -/
theorem mount_of_ready (h : Ready s c v E) :
    ∃ t, mount s.dev = some t ∧ Ready t ((fresh s.dev).hold 0) v E :=
  mount_ready (valid_loaded h.valid h.synced) h.tree h.synced

end Mounting

/-! ## Closing -/

section Closing

variable {s : Testfs} {c : Memory} {v : Volume}

theorem testfsWriteSuperBlock_spec (h : Stands s c v) :
    Wlp testfsWriteSuperBlock s (fun _ t => Stands t c v ∧ t.inodes = s.inodes) := by
  refine wlp_writeSuperBlock.mpr ⟨?_,rfl⟩
  have he : { v with usedBlocks := s.sb.usedBlockCount } = v := by rw [h.usedBlocks_eq]
  have hs := h.store_usedBlocks s.sb.usedBlockCount
  rw [he] at hs
  exact hs

/-- Writing back a free map that is on the device already. -/
theorem writeInodeMap_spec (h : Stands s c v) :
    Wlp (writeRegion s.inodeFreemap.v 1 1) s (fun _ t =>
      Stands t c v ∧ t.blockFreemap = s.blockFreemap ∧ t.sb = s.sb) := by
  rw [writeRegion,writeRegion,Wlp.bind_iff,Wlp.pure_iff,wlp_writeBlocks]
  intro _
  refine ⟨?_,rfl,rfl⟩
  have hs := h.store_inodeFreemap (m := s.inodeFreemap) (k := 0) (by norm_num) rfl
  rw [h.inodeUsed_eq] at hs
  exact hs

theorem writeBlockMap_spec (h : Stands s c v) {m : Region} (hm : s.blockFreemap.v = m) {n : ℕ}
    (hn : n ≤ blockFreemapSize) :
    Wlp (writeRegion m 2 n) s (fun _ t => Stands t c v ∧ t.blockFreemap.v = m) := by
  induction n with
  | zero => exact Wlp.pure_iff.mpr ⟨h,hm⟩
  | succ n ih =>
    rw [writeRegion,Wlp.bind_iff]
    refine (ih (by omega)).mono ?_
    rintro _ t ⟨ht,rfl⟩
    rw [wlp_writeBlocks]
    intro _
    refine ⟨?_,rfl⟩
    simp only [blockFreemapSize] at hn
    have hs := ht.store_blockFreemap (m := t.blockFreemap) (k := n*(blockSize*8))
      (by simp only [blockSize]; omega) rfl fun _ _ => rfl
    have hdiv : n*(blockSize*8)/(blockSize*8) = n := Nat.mul_div_cancel _ (by decide)
    have hto : ((2 : ℤ) + (n : ℤ)).toNat = 2 + n := by omega
    rw [ht.blockUsed_eq,hdiv] at hs
    rw [Nat.cast_ofNat,hto]
    exact hs

/-- `testfs_close_super_block` writes what is on the device already. -/
theorem testfsCloseSuperBlock_spec (h : Stands s c v) :
    Wlp testfsCloseSuperBlock s (fun _ t => Stands t c v) := by
  rw [testfsCloseSuperBlock,Wlp.bind_iff]
  refine (testfsWriteSuperBlock_spec h).mono ?_
  rintro _ t ⟨ht,-⟩
  have h1 : (1 : BitVec 32).toNat = 1 := rfl
  have h2 : (2 : BitVec 32).toNat = 2 := rfl
  simp only [Wlp.bind_iff,Wlp.get_iff,Wlp.guard_iff]
  intro _
  rw [ht.coherent.inodeFreemapStart,ht.coherent.blockFreemapStart,h1,h2]
  refine (writeInodeMap_spec ht).mono ?_
  rintro _ u ⟨hu,hmap,-⟩
  refine (writeBlockMap_spec hu (congrArg Bitmap.v hmap) le_rfl).mono ?_
  rintro _ w ⟨hw,-⟩
  exact hw

theorem testfsCloseSuperBlock_valid (h : Valid s c v) :
    Wlp testfsCloseSuperBlock s (fun _ t => Valid t c v) :=
  (testfsCloseSuperBlock_spec (h.stands.resize le_rfl)).mono fun _ _ ht => h.same rfl ht

theorem writeRegion_returns (m : Region) (start n : ℕ) (s : Testfs) :
    Returns (writeRegion m start n) s := by
  induction n generalizing s with
  | zero => exact Returns.pure _ s
  | succ n ih => exact Returns.bind (ih s) fun _ t _ => writeBlocks_returns (by positivity) t

/-- The hash table is empty when no inode is held. -/
theorem testfsCloseSuperBlock_returns (h : Stands s c v) (hc : ∀ i, c.count i = none) :
    Returns testfsCloseSuperBlock s := by
  refine Returns.bind (testfsWriteSuperBlock_returns s) ((testfsWriteSuperBlock_spec h).mono ?_)
  rintro _ t ⟨ht,-⟩
  have hempty : ∀ i < nrInodeBlocks*inodesPerBlock, t.inodes i = none := by
    intro i _
    have hi := ht.memory.count_eq i
    rw [hc i] at hi
    exact Option.map_eq_none_iff.mp hi
  refine Returns.bind (Returns.get t) (Wlp.get_iff.mpr ?_)
  refine Returns.bind (Returns.guard hempty t) fun _ t1 _ => ?_
  exact Returns.bind (writeRegion_returns _ _ _ t1) fun _ t2 _ => writeRegion_returns _ _ _ t2

end Closing

end FsImage
end OsLabs

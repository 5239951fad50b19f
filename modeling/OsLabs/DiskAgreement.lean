import Mathlib.Data.BitVec
import Mathlib.Tactic
import OsLabs.Bytes
import OsLabs.BitmapModel
import OsLabs.Wlp
import OsLabs.FsModel
import OsLabs.DirModel
import OsLabs.FsVolume
import OsLabs.FsAccounts
import OsLabs.Dirents
import OsLabs.DirMap
import OsLabs.FsTree
import OsLabs.FsCommands
import OsLabs.FsReading
import OsLabs.FsImage
import OsLabs.FsSessions
import OsLabs.DirReplies
import OsLabs.DirectoryMaps

/-!
# Memory and disk agree

In every state between two commands the super block, the two free maps and the inodes in memory
are on the device as they are in memory, so that the image is loaded as the same file system. The
two ways to write a part of a block are also looked at by themselves, in any state that a command
may pass through: `testfs_sync_inode` leaves the other inodes of the block, and one block of a
free map has all the bits that belong to it.
-/

namespace OsLabs
namespace DiskAgreement

open Bytes BitmapModel FsModel DirModel FsVolume FsAccounts Dirents DirMap FsTree FsCommands
open FsReading FsImage FsSessions DirReplies DirectoryMaps

/-- The inode as it is read from its inode block. -/
def storedInode (s : Testfs) (i : ℕ) : Dinode :=
  Dinode.load (s.dev.block (s.sb.inodeBlocksStart.toNat + i/inodesPerBlock))
    (testfsInodeToBlockOffset i)

structure OnDisk (s : Testfs) : Prop where
  superBlock : SuperBlock.load (s.dev.block 0) = s.sb
  inodeFreemap : ∀ k < inodeFreemapSize*blockSize,
    regionOf s.dev s.sb.inodeFreemapStart.toNat k = s.inodeFreemap.v k
  blockFreemap : ∀ k < blockFreemapSize*blockSize,
    regionOf s.dev s.sb.blockFreemapStart.toNat k = s.blockFreemap.v k
  inodes : ∀ i inode, s.inodes i = some inode → i < nrInodes ∧ inode.data = storedInode s i

/-- `t` is the file system of `s`, apart from the inodes in memory. -/
structure Rebuilt (s t : Testfs) : Prop where
  sb : t.sb = s.sb
  dev : t.dev = s.dev
  inodeBits : t.inodeFreemap.nbits = s.inodeFreemap.nbits
  inodeFreemap : ∀ k < s.inodeFreemap.nbits,
    bitmapIsset t.inodeFreemap k = bitmapIsset s.inodeFreemap k
  blockBits : t.blockFreemap.nbits = s.blockFreemap.nbits
  blockFreemap : ∀ k < s.blockFreemap.nbits,
    bitmapIsset t.blockFreemap k = bitmapIsset s.blockFreemap k
  volume : volume t = volume s
  names : ∃ E, Listing s E ∧ Listing t E

section States

variable {s : Testfs} {c : Memory} {v : Volume} {E : ℕ → List Entry}

theorem storedInode_eq (hst : s.sb.inodeBlocksStart = 18) (i : ℕ) :
    storedInode s i = diskInode s.dev i := by
  have h18 : (18 : BitVec 32).toNat = 18 := rfl
  rw [storedInode,hst,h18,diskInode]

theorem onDisk_of_ready (h : Ready s c v E) : OnDisk s := by
  have hc := h.valid.stands.coherent
  have h1 : (1 : BitVec 32).toNat = 1 := rfl
  have h2 : (2 : BitVec 32).toNat = 2 := rfl
  refine ⟨hc.superBlock,?_,?_,?_⟩
  · intro k hk
    rw [Nat.one_mul] at hk
    rw [hc.inodeFreemapStart,h1,regionOf_one hk]
    exact hc.inodeMap k hk
  · intro k hk
    rw [hc.blockFreemapStart,h2]
    exact hc.blockMap k hk
  · intro i inode hi
    obtain ⟨hlt,-⟩ := hc.cached i inode hi
    have hdisk : v.disk i = diskInode s.dev i := by
      rw [← h.valid.stands.volume_eq]
      exact if_pos hlt
    rw [storedInode_eq hc.inodeBlocksStart,← hdisk,h.synced]
    exact ⟨hlt,h.valid.stands.inode_eq hi⟩

theorem rebuilt_loaded (h : Ready s c v E) : Rebuilt s (loaded s.dev) := by
  have hs := h.valid.stands
  have hl := valid_loaded h.valid h.synced
  have hvol : volume (loaded s.dev) = volume s := by rw [hl.stands.volume_eq,hs.volume_eq]
  have hi : (loaded s.dev).inodeFreemap.nbits = s.inodeFreemap.nbits := hs.coherent.inodeBits.symm
  have hb : (loaded s.dev).blockFreemap.nbits = s.blockFreemap.nbits := hs.coherent.blockBits.symm
  exact
    { sb := hs.coherent.superBlock
      dev := rfl
      inodeBits := hi
      inodeFreemap := fun k => isset_of_bits hi (congrArg Volume.inodeUsed hvol)
      blockBits := hb
      blockFreemap := fun k => isset_of_bits hb (congrArg Volume.blockUsed hvol)
      volume := hvol
      names := ⟨E,listing_of_valid h.valid h.tree,listing_of_valid hl h.tree⟩ }

end States

/-! ## Writing a part of a block -/

section Parts

variable {t : Testfs} {i k : ℕ} {inode : Inode}

/-- `testfs_sync_inode` stores its inode, if it is dirty, and leaves the other ones. -/
theorem testfsSyncInode_stores (hst : t.sb.inodeBlocksStart = 18) (hsize : dataStart ≤ t.dev.size)
    (hi : i < nrInodes) (hc : t.inodes i = some inode) :
    Total (testfsSyncInode i) t fun _ u => ∀ j, storedInode u j =
      if j = i ∧ inode.dirty = true then inode.data else storedInode t j := by
  have hblock : i/inodesPerBlock < nrInodeBlocks := by
    simp only [nrInodes,inodesPerBlock,nrInodeBlocks] at *
    omega
  have hb : ((t.sb.inodeBlocksStart.toNat : ℤ) + (i : ℤ)/(inodesPerBlock : ℤ)) =
      (18 + i/inodesPerBlock : ℕ) := by
    rw [hst,← Int.natCast_ediv,← Nat.cast_add]
    rfl
  have hlt := lt_of_lt_of_le (inodeBlock_lt hi) hsize
  refine Total.bind (Total.bind (Total.get (Total.lift hc ?_)))
  by_cases hd : inode.dirty = false
  · rw [if_pos hd]
    refine Total.pure fun j => ?_
    rw [if_neg (by simp [hd])]
  · rw [if_neg hd]
    refine Total.bind (Total.bind (Total.guard hblock (Total.bind (Total.get ?_))))
    rw [hb]
    refine Total.bind (Total.get (Total.bind (Total.guard ⟨Int.natCast_nonneg _,hlt⟩ (Total.pure ?_))))
    refine Total.bind (Total.bind (Total.guard hblock (Total.bind (Total.get ?_))))
    rw [hb]
    refine Total.bind (Total.guard (Int.natCast_nonneg _) (Total.modify (Total.modify ?_)))
    intro j
    have hdirty : inode.dirty = true := by simpa using hd
    rw [storedInode_eq hst,storedInode_eq (by exact hst)]
    simp only [hdirty,and_true]
    exact diskInode_syncDevice t.dev i j inode.data

/-- The block of the free map `m` that has the bit `k` is written. -/
theorem storeMap_total (m : Region) (start : BitVec 32) (k : ℕ) :
    Total (writeBlocks (fun j => m (k/(blockSize*8)*blockSize + j))
      ((start.toNat : ℤ) + (k/(blockSize*8) : ℕ))) t fun _ u =>
        ∀ j, regionOf u.dev start.toNat (j/8) =
          if j/(blockSize*8) = k/(blockSize*8) then m (j/8)
          else regionOf t.dev start.toNat (j/8) := by
  rw [← Nat.cast_add]
  refine Total.bind (Total.guard (Int.natCast_nonneg _) (Total.modify fun j => ?_))
  have hdiv : j/8/blockSize = j/(blockSize*8) := by
    rw [Nat.div_div_eq_div_mul,Nat.mul_comm 8]
  rw [regionOf,hdiv,Int.toNat_natCast]
  by_cases hj : j/(blockSize*8) = k/(blockSize*8)
  · rw [if_pos hj,hj,block_write_self,← hj,← hdiv,Nat.div_add_mod']
  · rw [if_neg hj,block_write_of_ne _ _ (by omega),regionOf,hdiv]

end Parts

/-- Memory and disk agree between any two commands, and the image is loaded as the same file
system. -/
theorem memory_on_disk {s : Testfs} (h : FsReachable s) :
    OnDisk s ∧ (∃ t, testfsInitSuperBlock s.dev = some t ∧ Rebuilt s t) ∧
    (∀ t i inode, t.sb.inodeBlocksStart = s.sb.inodeBlocksStart → s.dev.size ≤ t.dev.size →
      i < nrInodes → t.inodes i = some inode → Total (testfsSyncInode i) t fun _ u =>
        ∀ j, storedInode u j =
          if j = i ∧ inode.dirty = true then inode.data else storedInode t j) ∧
    (∀ t k, Total (testfsWriteInodeFreemap k) t fun _ u =>
      ∀ j, regionOf u.dev t.sb.inodeFreemapStart.toNat (j/8) =
        if j/(blockSize*8) = k/(blockSize*8) then t.inodeFreemap.v (j/8)
        else regionOf t.dev t.sb.inodeFreemapStart.toNat (j/8)) ∧
    ∀ t k, Total (testfsWriteBlockFreemap k) t fun _ u =>
      ∀ j, regionOf u.dev t.sb.blockFreemapStart.toNat (j/8) =
        if j/(blockSize*8) = k/(blockSize*8) then t.blockFreemap.v (j/8)
        else regionOf t.dev t.sb.blockFreemapStart.toNat (j/8) := by
  obtain ⟨c,E,hr⟩ := ready_of_reachable h
  have hc := hr.valid.stands.coherent
  refine ⟨onDisk_of_ready hr,⟨_,testfsInitSuperBlock_formatted (formatted_of_coherent hc),
    rebuilt_loaded hr⟩,?_,?_,?_⟩
  · intro t i inode hst hsize
    exact testfsSyncInode_stores (hst.trans hc.inodeBlocksStart) (hc.sized.trans hsize)
  · exact fun t k => Total.bind (Total.get (storeMap_total ..))
  · exact fun t k => Total.bind (Total.get (storeMap_total ..))

theorem usedTestfs_on_disk : OnDisk usedTestfs ∧
    (∃ t, testfsInitSuperBlock usedTestfs.dev = some t ∧ Rebuilt usedTestfs t) ∧
    ∃ inode, usedTestfs.inodes usedTestfs.curDir = some inode ∧
      Total (testfsSyncInode usedTestfs.curDir) usedTestfs fun _ u =>
        ∀ j, j ≠ usedTestfs.curDir → storedInode u j = storedInode usedTestfs j := by
  obtain ⟨hdisk,hload,hsync,-⟩ := memory_on_disk usedTestfs_reachable
  obtain ⟨c,E,hr⟩ := ready_of_reachable usedTestfs_reachable
  obtain ⟨inode,hc⟩ := exists_inode hr.valid.stands hr.held
  rw [← hr.curDir_eq] at hc
  refine ⟨hdisk,hload,inode,hc,(hsync _ _ _ rfl le_rfl (hdisk.inodes _ _ hc).1 hc).mono ?_⟩
  intro _ u hu j hj
  rw [hu j,if_neg fun h => hj h.1]

end DiskAgreement
end OsLabs

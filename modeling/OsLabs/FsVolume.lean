import Mathlib.Data.BitVec
import Mathlib.Tactic
import OsLabs.Bytes
import OsLabs.Wlp
import OsLabs.BitmapModel
import OsLabs.FsModel

/-!
# The volume that a mounted file system stands for

A `Volume` has the inodes as the program sees them (the in-memory copy where there is one), the
data blocks, the two free maps as sets of bits and the counters. `Stands s c v` says that the
mounted file system `s` is in order (its cached inodes that are not dirty agree with the inode
blocks on the device) and stands for the volume `v` with current directory `c`. Every primitive
of the file system has its effect on the volume; the functions that only move inodes between
memory and disk have none.
-/

namespace OsLabs
namespace FsVolume

open Bytes BitmapModel FsModel

/-! ## Structures on the device -/

theorem Dinode.length_words (d : Dinode) : d.words.length = 14 := by
  simp [Dinode.words]

theorem Dinode.length_bytes (d : Dinode) : d.bytes.length = 64 := by
  rw [Dinode.bytes,List.length_append,length_flatMap_stored,Dinode.length_words,length_stored]

theorem Dinode.load_word (m : Region) (o : ℕ) (d : Dinode) {k : ℕ} {x : BitVec 32}
    (h : d.words[k]? = some x) : Bytes.load 32 (copyIn m o d.bytes) (o + 4*k) = x := by
  obtain ⟨hk,rfl⟩ := List.getElem?_eq_some_iff.mp h
  have hk' := hk
  rw [Dinode.length_words] at hk'
  refine load_copyIn (by norm_num) m ?_ ?_
  · rw [Dinode.length_bytes]
    omega
  · exact take_drop_flatMap_stored d.words hk (stored d.iSize)

/-- An inode that was copied into its block is read back. -/
theorem Dinode.load_copyIn (m : Region) (o : ℕ) (d : Dinode) :
    Dinode.load (copyIn m o d.bytes) o = d := by
  have hsize : Bytes.load 64 (copyIn m o d.bytes) (o + 56) = d.iSize := by
    refine Bytes.load_copyIn (by norm_num) m ?_ ?_
    · rw [Dinode.length_bytes]
    · rw [Dinode.bytes,List.drop_left' (by rw [length_flatMap_stored,Dinode.length_words]),
        List.take_of_length_le (by simp)]
  have hblocks : ∀ k : Fin nrDirectBlocks, d.words[1 + k.val]? = some (d.iBlockNr k) := by
    intro k
    have hk : k.val < 10 := k.isLt
    rw [Dinode.words,Nat.add_comm,List.getElem?_cons_succ,List.getElem?_append_left (by simp [hk]),
      List.getElem?_ofFn,dif_pos hk]
  have htype := Dinode.load_word m o d (k := 0) (x := d.iType) (by simp [Dinode.words])
  have hind := Dinode.load_word m o d (k := 11) (x := d.iIndirect) (by simp [Dinode.words])
  have hdind := Dinode.load_word m o d (k := 12) (x := d.iDindirect) (by simp [Dinode.words])
  have hcount := Dinode.load_word m o d (k := 13) (x := d.blockCount) (by simp [Dinode.words])
  have hnr : ∀ k : Fin nrDirectBlocks,
      Bytes.load 32 (copyIn m o d.bytes) (o + 4*(1 + k.val)) = d.iBlockNr k :=
    fun k => Dinode.load_word m o d (hblocks k)
  rw [Nat.mul_zero,Nat.add_zero] at htype
  simp only [Dinode.load,htype,hind,hdind,hcount,hsize,hnr]

/-- The inodes at other places of the block stay. -/
theorem Dinode.load_copyIn_of_disjoint (m : Region) {o a : ℕ} (d : Dinode)
    (h : a + 64 ≤ o ∨ o + 64 ≤ a) : Dinode.load (copyIn m o d.bytes) a = Dinode.load m a := by
  have hw : ∀ k < 14, Bytes.load 32 (copyIn m o d.bytes) (a + 4*k) = Bytes.load 32 m (a + 4*k) := by
    intro k hk
    refine Bytes.load_copyIn_of_disjoint m ?_
    rw [Dinode.length_bytes]
    omega
  have hsize : Bytes.load 64 (copyIn m o d.bytes) (a + 56) = Bytes.load 64 m (a + 56) := by
    refine Bytes.load_copyIn_of_disjoint m ?_
    rw [Dinode.length_bytes]
    omega
  have hnr : ∀ k : Fin nrDirectBlocks, Bytes.load 32 (copyIn m o d.bytes) (a + 4*(1 + k.val)) =
      Bytes.load 32 m (a + 4*(1 + k.val)) := by
    intro k
    have hk : k.val < 10 := k.isLt
    exact hw _ (by omega)
  have htype := hw 0 (by omega)
  rw [Nat.mul_zero,Nat.add_zero] at htype
  simp only [Dinode.load,htype,hnr,hw 11 (by omega),hw 12 (by omega),hw 13 (by omega),hsize]

theorem Dinode.load_zero (a : ℕ) : Dinode.load (fun _ => 0) a = Dinode.zero := by
  simp only [Dinode.load,Dinode.zero,Bytes.load_zero]

/-- The super block is read back from its block. -/
theorem SuperBlock.load_copyIn (sb : SuperBlock) :
    SuperBlock.load (copyIn (fun _ => 0) 0 sb.bytes) = sb := by
  have hlen : sb.bytes.length = 32 := by
    rw [SuperBlock.bytes,List.length_append,length_flatMap_stored]
    simp
  have hw : ∀ {k : ℕ} {x : BitVec 32}, [sb.inodeFreemapStart,sb.blockFreemapStart,
      sb.inodeBlocksStart,sb.dataBlocksStart,sb.usedInodeCount,sb.usedBlockCount][k]? = some x →
      Bytes.load 32 (copyIn (fun _ => 0) 0 sb.bytes) (0 + 4*k) = x := by
    intro k x h
    obtain ⟨hk,rfl⟩ := List.getElem?_eq_some_iff.mp h
    have hk' : k < 6 := by simpa using hk
    refine Bytes.load_copyIn (by norm_num) _ ?_ ?_
    · rw [hlen]
      omega
    · exact take_drop_flatMap_stored _ hk (stored sb.maxFsBlocks)
  have hmax : Bytes.load 64 (copyIn (fun _ => 0) 0 sb.bytes) (0 + 24) = sb.maxFsBlocks := by
    refine Bytes.load_copyIn (by norm_num) _ ?_ ?_
    · rw [hlen]
    · rw [SuperBlock.bytes,List.drop_left' (by simp),
        List.take_of_length_le (by simp)]
  have h0 := hw (k := 0) (x := sb.inodeFreemapStart) rfl
  have h1 := hw (k := 1) (x := sb.blockFreemapStart) rfl
  have h2 := hw (k := 2) (x := sb.inodeBlocksStart) rfl
  have h3 := hw (k := 3) (x := sb.dataBlocksStart) rfl
  have h4 := hw (k := 4) (x := sb.usedInodeCount) rfl
  have h5 := hw (k := 5) (x := sb.usedBlockCount) rfl
  simp only [Nat.zero_add,Nat.reduceMul] at h0 h1 h2 h3 h4 h5 hmax
  simp only [SuperBlock.load,h0,h1,h2,h3,h4,h5,hmax]

/-! ## Volumes -/

/-- Number of inodes on the device. -/
abbrev nrInodes : ℕ := 16384

/-- The first data block. -/
abbrev dataStart : ℕ := 146

structure Volume where
  inode : ℕ → Dinode
  disk : ℕ → Dinode
  block : ℕ → Region
  inodeUsed : ℕ → Bool
  blockUsed : ℕ → Bool
  usedInodes : BitVec 32
  usedBlocks : BitVec 32
  maxBlocks : BitVec 64

def diskInode (dev : Device) (i : ℕ) : Dinode :=
  Dinode.load (dev.block (18 + i/inodesPerBlock)) (testfsInodeToBlockOffset i)

/-- The inode as it is stored on the device. -/
def diskView (dev : Device) (i : ℕ) : Dinode :=
  if i < nrInodes then diskInode dev i else Dinode.zero

/-- The inode in memory, or the one that would be read from disk. -/
def inodeView (s : Testfs) (i : ℕ) : Dinode :=
  match s.inodes i with
  | some inode => inode.data
  | none => diskView s.dev i

/-- The bits of a bitmap. -/
def bits (b : Bitmap) (i : ℕ) : Bool := decide (i < b.nbits) && bitmapIsset b i

def volume (s : Testfs) : Volume where
  inode := inodeView s
  disk := diskView s.dev
  block := fun b => if dataStart ≤ b then s.dev.block b else fun _ => 0
  inodeUsed := bits s.inodeFreemap
  blockUsed := bits s.blockFreemap
  usedInodes := s.sb.usedInodeCount
  usedBlocks := s.sb.usedBlockCount
  maxBlocks := s.sb.maxFsBlocks

/-- Layout and coherence of a mounted file system: the super block and the free maps are on the
device as they are in memory, and so are the inodes that are not dirty. -/
structure Coherent (s : Testfs) : Prop where
  inodeFreemapStart : s.sb.inodeFreemapStart = 1
  blockFreemapStart : s.sb.blockFreemapStart = 2
  inodeBlocksStart : s.sb.inodeBlocksStart = 18
  dataBlocksStart : s.sb.dataBlocksStart = 146
  inodeBits : s.inodeFreemap.nbits = 2^16
  blockBits : s.blockFreemap.nbits = 2^20
  sized : dataStart ≤ s.dev.size
  superBlock : SuperBlock.load (s.dev.block 0) = s.sb
  inodeMap : ∀ k < blockSize, s.dev.block 1 k = s.inodeFreemap.v k
  blockMap : ∀ k < 16*blockSize, s.dev.block (2 + k/blockSize) (k % blockSize) = s.blockFreemap.v k
  cached : ∀ i inode, s.inodes i = some inode →
    i < nrInodes ∧ (inode.dirty = false → inode.data = diskInode s.dev i)

/-- The in-memory inode is dirty. -/
def Dirty (s : Testfs) (i : ℕ) : Prop :=
  ∃ inode, s.inodes i = some inode ∧ inode.dirty = true

/-- What is known of the memory besides the contents of the inodes: the current directory, a
number of blocks that the device has at least, the reference counts of the inodes, and the
inodes that may be dirty. -/
structure Memory where
  curDir : ℕ
  size : ℕ
  count : ℕ → Option ℤ
  dirty : Set ℕ

namespace Memory

/-- One more reference to an inode. -/
def hold (c : Memory) (i : ℕ) : Memory :=
  { c with count := Function.update c.count i (some ((c.count i).getD 0 + 1)) }

/-- One reference less to an inode, which is not dirty. -/
def release (c : Memory) (i : ℕ) : Memory :=
  { c with
    count := Function.update c.count i
      ((c.count i).bind fun k => if k - 1 = 0 then none else some (k - 1))
    dirty := c.dirty \ {i} }

def touch (c : Memory) (i : ℕ) : Memory := { c with dirty := insert i c.dirty }

def clean (c : Memory) (i : ℕ) : Memory := { c with dirty := c.dirty \ {i} }

def resize (c : Memory) (n : ℕ) : Memory := { c with size := n }

/-- No inode in memory is without references. -/
def Counted (c : Memory) : Prop := ∀ i k, c.count i = some k → 0 < k

end Memory

/-- The memory of a mounted file system. -/
structure InMemory (s : Testfs) (c : Memory) : Prop where
  curDir_eq : s.curDir = c.curDir
  size_le : c.size ≤ s.dev.size
  count_eq : ∀ i, (s.inodes i).map Inode.iCount = c.count i
  dirty_mem : ∀ i, Dirty s i → i ∈ c.dirty

/-- The mounted file system stands for a volume. -/
structure Stands (s : Testfs) (c : Memory) (v : Volume) : Prop where
  coherent : Coherent s
  volume_eq : volume s = v
  memory : InMemory s c

namespace Volume

def setInode (v : Volume) (i : ℕ) (d : Dinode) : Volume :=
  { v with inode := Function.update v.inode i d }

def setBlock (v : Volume) (b : ℕ) (r : Region) : Volume :=
  { v with block := Function.update v.block b r }

def takeBlock (v : Volume) (k : ℕ) : Volume :=
  { v with blockUsed := Function.update v.blockUsed k true, usedBlocks := v.usedBlocks + 1 }

def dropBlock (v : Volume) (k : ℕ) : Volume :=
  { v with blockUsed := Function.update v.blockUsed k false, usedBlocks := v.usedBlocks - 1 }

def takeInode (v : Volume) (i : ℕ) : Volume :=
  { v with inodeUsed := Function.update v.inodeUsed i true, usedInodes := v.usedInodes + 1 }

def dropInode (v : Volume) (i : ℕ) : Volume :=
  { v with inodeUsed := Function.update v.inodeUsed i false, usedInodes := v.usedInodes - 1 }

/-- The inode is written to its block. -/
def sync (v : Volume) (i : ℕ) : Volume :=
  { v with disk := Function.update v.disk i (v.inode i) }

variable (v : Volume) (i b k : ℕ) (d e : Dinode) (r : Region)

@[simp] theorem setInode_inode_self : (v.setInode i d).inode i = d := Function.update_self ..

theorem setInode_inode_of_ne {j : ℕ} (h : j ≠ i) : (v.setInode i d).inode j = v.inode j :=
  Function.update_of_ne h ..

@[simp] theorem setInode_setInode : (v.setInode i d).setInode i e = v.setInode i e := by
  simp only [setInode,Function.update_idem]

@[simp] theorem setInode_block : (v.setInode i d).block = v.block := rfl
@[simp] theorem setInode_blockUsed : (v.setInode i d).blockUsed = v.blockUsed := rfl
@[simp] theorem setInode_inodeUsed : (v.setInode i d).inodeUsed = v.inodeUsed := rfl
@[simp] theorem setInode_usedBlocks : (v.setInode i d).usedBlocks = v.usedBlocks := rfl
@[simp] theorem setInode_usedInodes : (v.setInode i d).usedInodes = v.usedInodes := rfl
@[simp] theorem setInode_maxBlocks : (v.setInode i d).maxBlocks = v.maxBlocks := rfl

@[simp] theorem setInode_disk : (v.setInode i d).disk = v.disk := rfl

@[simp] theorem setBlock_block_self : (v.setBlock b r).block b = r := Function.update_self ..

theorem setBlock_block_of_ne {a : ℕ} (h : a ≠ b) : (v.setBlock b r).block a = v.block a :=
  Function.update_of_ne h ..

@[simp] theorem setBlock_inode : (v.setBlock b r).inode = v.inode := rfl
@[simp] theorem setBlock_blockUsed : (v.setBlock b r).blockUsed = v.blockUsed := rfl
@[simp] theorem setBlock_inodeUsed : (v.setBlock b r).inodeUsed = v.inodeUsed := rfl
@[simp] theorem setBlock_usedBlocks : (v.setBlock b r).usedBlocks = v.usedBlocks := rfl
@[simp] theorem setBlock_usedInodes : (v.setBlock b r).usedInodes = v.usedInodes := rfl
@[simp] theorem setBlock_maxBlocks : (v.setBlock b r).maxBlocks = v.maxBlocks := rfl

@[simp] theorem takeBlock_inode : (v.takeBlock k).inode = v.inode := rfl
@[simp] theorem takeBlock_block : (v.takeBlock k).block = v.block := rfl
@[simp] theorem takeBlock_inodeUsed : (v.takeBlock k).inodeUsed = v.inodeUsed := rfl
@[simp] theorem takeBlock_usedInodes : (v.takeBlock k).usedInodes = v.usedInodes := rfl
@[simp] theorem takeBlock_maxBlocks : (v.takeBlock k).maxBlocks = v.maxBlocks := rfl

@[simp] theorem dropBlock_inode : (v.dropBlock k).inode = v.inode := rfl
@[simp] theorem dropBlock_block : (v.dropBlock k).block = v.block := rfl
@[simp] theorem dropBlock_inodeUsed : (v.dropBlock k).inodeUsed = v.inodeUsed := rfl
@[simp] theorem dropBlock_usedInodes : (v.dropBlock k).usedInodes = v.usedInodes := rfl
@[simp] theorem dropBlock_maxBlocks : (v.dropBlock k).maxBlocks = v.maxBlocks := rfl

@[simp] theorem takeInode_inode : (v.takeInode i).inode = v.inode := rfl
@[simp] theorem takeInode_block : (v.takeInode i).block = v.block := rfl
@[simp] theorem takeInode_blockUsed : (v.takeInode i).blockUsed = v.blockUsed := rfl
@[simp] theorem takeInode_usedBlocks : (v.takeInode i).usedBlocks = v.usedBlocks := rfl
@[simp] theorem takeInode_maxBlocks : (v.takeInode i).maxBlocks = v.maxBlocks := rfl

@[simp] theorem dropInode_inode : (v.dropInode i).inode = v.inode := rfl
@[simp] theorem dropInode_block : (v.dropInode i).block = v.block := rfl
@[simp] theorem dropInode_blockUsed : (v.dropInode i).blockUsed = v.blockUsed := rfl
@[simp] theorem dropInode_usedBlocks : (v.dropInode i).usedBlocks = v.usedBlocks := rfl
@[simp] theorem dropInode_maxBlocks : (v.dropInode i).maxBlocks = v.maxBlocks := rfl

@[simp] theorem sync_inode : (v.sync i).inode = v.inode := rfl
@[simp] theorem sync_block : (v.sync i).block = v.block := rfl
@[simp] theorem sync_inodeUsed : (v.sync i).inodeUsed = v.inodeUsed := rfl
@[simp] theorem sync_blockUsed : (v.sync i).blockUsed = v.blockUsed := rfl
@[simp] theorem sync_usedInodes : (v.sync i).usedInodes = v.usedInodes := rfl
@[simp] theorem sync_usedBlocks : (v.sync i).usedBlocks = v.usedBlocks := rfl
@[simp] theorem sync_maxBlocks : (v.sync i).maxBlocks = v.maxBlocks := rfl

theorem sync_of_eq (h : v.disk i = v.inode i) : v.sync i = v := by
  rw [sync,← h,Function.update_eq_self]

end Volume

/-! ## Changes of the state -/

section Changes

variable {s t : Testfs} {c c' : Memory} {v : Volume}

theorem InMemory.of_eq (h : InMemory s c) (hi : t.inodes = s.inodes) (hc : t.curDir = s.curDir)
    (hn : s.dev.size ≤ t.dev.size) : InMemory t c := by
  refine ⟨hc.trans h.curDir_eq,h.size_le.trans hn,?_,?_⟩
  · rw [hi]
    exact h.count_eq
  · intro i hd
    refine h.dirty_mem i ?_
    rwa [Dirty,hi] at hd

/-- The in-memory inode is replaced. -/
theorem InMemory.set_inode (h : InMemory s c) {i : ℕ} {x : Inode} (hcur : c'.curDir = c.curDir)
    (hsize : c'.size = c.size) (hcount : c'.count = Function.update c.count i (some x.iCount))
    (hself : x.dirty = true → i ∈ c'.dirty) (hother : ∀ j, j ≠ i → j ∈ c.dirty → j ∈ c'.dirty) :
    InMemory { s with inodes := Function.update s.inodes i (some x) } c' := by
  refine ⟨h.curDir_eq.trans hcur.symm,hsize.le.trans h.size_le,?_,?_⟩
  · intro j
    rw [hcount]
    by_cases hj : j = i
    · subst hj
      simp only [Function.update_self,Option.map_some]
    · simp only [Function.update_of_ne hj]
      exact h.count_eq j
  · rintro j ⟨y,hy,hd⟩
    by_cases hj : j = i
    · subst hj
      simp only [Function.update_self,Option.some.injEq] at hy
      subst hy
      exact hself hd
    · simp only [Function.update_of_ne hj] at hy
      exact hother j hj (h.dirty_mem j ⟨y,hy,hd⟩)

theorem InMemory.drop_inode (h : InMemory s c) {i : ℕ} (hcur : c'.curDir = c.curDir)
    (hsize : c'.size = c.size) (hcount : c'.count = Function.update c.count i none)
    (hother : ∀ j, j ≠ i → j ∈ c.dirty → j ∈ c'.dirty) :
    InMemory { s with inodes := Function.update s.inodes i none } c' := by
  refine ⟨h.curDir_eq.trans hcur.symm,hsize.le.trans h.size_le,?_,?_⟩
  · intro j
    rw [hcount]
    by_cases hj : j = i
    · subst hj
      simp only [Function.update_self,Option.map_none]
    · simp only [Function.update_of_ne hj]
      exact h.count_eq j
  · rintro j ⟨y,hy,hd⟩
    by_cases hj : j = i
    · subst hj
      simp at hy
    · simp only [Function.update_of_ne hj] at hy
      exact hother j hj (h.dirty_mem j ⟨y,hy,hd⟩)

theorem InMemory.count_self (h : InMemory s c) {i : ℕ} {x : Inode} (hx : s.inodes i = some x) :
    c.count i = some x.iCount := by
  rw [← h.count_eq i,hx,Option.map_some]

theorem InMemory.update_count (h : InMemory s c) {i : ℕ} {x y : Inode} (hx : s.inodes i = some x)
    (hy : y.iCount = x.iCount) : c.count = Function.update c.count i (some y.iCount) := by
  rw [hy,← h.count_self hx,Function.update_eq_self]

/-- Less is known of the memory. -/
theorem Stands.mono (h : Stands s c v) (hcur : c'.curDir = c.curDir) (hsize : c'.size ≤ c.size)
    (hcount : c'.count = c.count) (hd : c.dirty ⊆ c'.dirty) : Stands s c' v := by
  refine ⟨h.coherent,h.volume_eq,h.memory.curDir_eq.trans hcur.symm,
    hsize.trans h.memory.size_le,?_,fun i hi => hd (h.memory.dirty_mem i hi)⟩
  rw [hcount]
  exact h.memory.count_eq

theorem Stands.touch (h : Stands s c v) (i : ℕ) : Stands s (c.touch i) v :=
  h.mono rfl le_rfl rfl (Set.subset_insert i c.dirty)

theorem Stands.of_clean {i : ℕ} (h : Stands s (c.clean i) v) : Stands s c v :=
  h.mono rfl le_rfl rfl Set.sdiff_subset

theorem Stands.resize (h : Stands s c v) {n : ℕ} (hn : n ≤ s.dev.size) : Stands s (c.resize n) v :=
  ⟨h.coherent,h.volume_eq,h.memory.curDir_eq,hn,h.memory.count_eq,h.memory.dirty_mem⟩

theorem block_write_of_ne (dev : Device) {a b : ℕ} (r : Region) (h : a ≠ b) :
    (dev.write b r).block a = dev.block a :=
  Function.update_of_ne h ..

theorem block_write_self (dev : Device) (b : ℕ) (r : Region) : (dev.write b r).block b = r :=
  Function.update_self ..

theorem size_le_write (dev : Device) (b : ℕ) (r : Region) : dev.size ≤ (dev.write b r).size :=
  le_max_left ..

theorem lt_size_write (dev : Device) (b : ℕ) (r : Region) : b < (dev.write b r).size :=
  lt_of_lt_of_le (Nat.lt_succ_self b) (le_max_right ..)

theorem diskInode_write_of_ne (dev : Device) {b i : ℕ} (r : Region) (h : 18 + i/inodesPerBlock ≠ b) :
    diskInode (dev.write b r) i = diskInode dev i := by
  rw [diskInode,block_write_of_ne dev r h,diskInode]

theorem inodeBlock_lt {i : ℕ} (hi : i < nrInodes) : 18 + i/inodesPerBlock < dataStart := by
  simp only [nrInodes,inodesPerBlock,dataStart] at *
  omega

theorem inodeBlock_ne {i b : ℕ} (hi : i < nrInodes) (hb : b < 18 ∨ dataStart ≤ b) :
    18 + i/inodesPerBlock ≠ b := by
  simp only [nrInodes,inodesPerBlock,dataStart] at *
  omega

/-- The inodes on the device do not depend on the other blocks. -/
theorem diskView_write (dev : Device) {b : ℕ} (r : Region) (hb : b < 18 ∨ dataStart ≤ b) :
    diskView (dev.write b r) = diskView dev := by
  funext i
  simp only [diskView]
  by_cases hi : i < nrInodes
  · rw [if_pos hi,if_pos hi]
    exact diskInode_write_of_ne dev r (inodeBlock_ne hi hb)
  · rw [if_neg hi,if_neg hi]

theorem Coherent.cached_write (h : Coherent s) {b : ℕ} (r : Region) (hb : b < 18 ∨ dataStart ≤ b)
    {i : ℕ} {inode : Inode} (hi : s.inodes i = some inode) :
    i < nrInodes ∧ (inode.dirty = false → inode.data = diskInode (s.dev.write b r) i) := by
  obtain ⟨h1,h2⟩ := h.cached i inode hi
  refine ⟨h1,fun hd => ?_⟩
  rw [h2 hd,diskInode_write_of_ne _ _ (inodeBlock_ne h1 hb)]

/-- A block before the inode blocks is no part of the volume. -/
theorem volume_write_meta (s : Testfs) {b : ℕ} (r : Region) (hb : b < 18) :
    volume { s with dev := s.dev.write b r } = volume s := by
  have hblock : ∀ k, (if dataStart ≤ k then (s.dev.write b r).block k else fun _ => 0) =
      if dataStart ≤ k then s.dev.block k else fun _ => 0 := by
    intro k
    by_cases hk : dataStart ≤ k
    · have hne : k ≠ b := by
        simp only [dataStart] at hk
        omega
      rw [if_pos hk,if_pos hk,block_write_of_ne _ _ hne]
    · rw [if_neg hk,if_neg hk]
  have hview : inodeView { s with dev := s.dev.write b r } = inodeView s := by
    funext i
    simp only [inodeView,diskView_write s.dev r (Or.inl hb)]
  simp only [volume,hview,diskView_write s.dev r (Or.inl hb),hblock]

/-- A data block is written. -/
theorem Stands.write_data (h : Stands s c v) {b : ℕ} (r : Region) (hb : dataStart ≤ b) :
    Stands { s with dev := s.dev.write b r } c (v.setBlock b r) := by
  have hb' : 146 ≤ b := hb
  refine ⟨{ h.coherent with
    sized := h.coherent.sized.trans (size_le_write ..)
    superBlock := ?_
    inodeMap := ?_
    blockMap := ?_
    cached := fun i inode => h.coherent.cached_write r (Or.inr hb) },?_,
    h.memory.of_eq rfl rfl (size_le_write ..)⟩
  · rw [block_write_of_ne _ _ (by omega)]
    exact h.coherent.superBlock
  · rw [block_write_of_ne _ _ (by omega)]
    exact h.coherent.inodeMap
  · intro k hk
    simp only [blockSize] at *
    rw [block_write_of_ne _ _ (by omega)]
    exact h.coherent.blockMap k hk
  · have hblock : (volume { s with dev := s.dev.write b r }).block =
        Function.update (volume s).block b r := by
      funext k
      by_cases hk : k = b
      · subst hk
        simp only [volume,if_pos hb,block_write_self,Function.update_self]
      · simp only [volume,block_write_of_ne _ _ hk,Function.update_of_ne hk]
    have hview : inodeView { s with dev := s.dev.write b r } = inodeView s := by
      funext i
      simp only [inodeView,diskView_write s.dev r (Or.inr hb)]
    rw [← h.volume_eq,Volume.setBlock]
    simp only [volume] at hblock ⊢
    rw [hview,hblock,diskView_write s.dev r (Or.inr hb)]

/-- The counters of the super block are changed, in memory and on the device. -/
theorem Stands.store_counts (h : Stands s c v) (n k : BitVec 32) :
    Stands { s with
      sb := { s.sb with usedInodeCount := n, usedBlockCount := k }
      dev := s.dev.write 0 (copyIn (fun _ => 0) 0
        (SuperBlock.bytes { s.sb with usedInodeCount := n, usedBlockCount := k })) } c
      { v with usedInodes := n, usedBlocks := k } := by
  refine ⟨{ h.coherent with
    sized := h.coherent.sized.trans (size_le_write ..)
    superBlock := ?_
    inodeMap := ?_
    blockMap := ?_
    cached := fun i inode => h.coherent.cached_write _ (Or.inl (by norm_num)) },?_,
    h.memory.of_eq rfl rfl (size_le_write ..)⟩
  · rw [block_write_self]
    exact SuperBlock.load_copyIn _
  · rw [block_write_of_ne _ _ (by omega)]
    exact h.coherent.inodeMap
  · intro j hj
    rw [block_write_of_ne _ _ (by simp only [blockSize]; omega)]
    exact h.coherent.blockMap j hj
  · rw [← h.volume_eq]
    exact volume_write_meta { s with sb := { s.sb with usedInodeCount := n, usedBlockCount := k } } _
      (by norm_num)

/-- A byte of the block free map is changed, in memory and on the device. -/
theorem Stands.store_blockFreemap (h : Stands s c v) {m : Bitmap} {k : ℕ} (hk : k < 2^20)
    (hn : m.nbits = s.blockFreemap.nbits) (hm : ∀ j, j ≠ k/8 → m.v j = s.blockFreemap.v j) :
    Stands { s with
      blockFreemap := m
      dev := s.dev.write (2 + k/(blockSize*8))
        (fun j => m.v (k/(blockSize*8)*blockSize + j)) } c
      { v with blockUsed := bits m } := by
  simp only [blockSize] at *
  have hb : 2 + k/(8192*8) < 18 := by omega
  refine ⟨{ h.coherent with
    blockBits := hn.trans h.coherent.blockBits
    sized := h.coherent.sized.trans (size_le_write ..)
    superBlock := ?_
    inodeMap := ?_
    blockMap := ?_
    cached := fun i inode => h.coherent.cached_write _ (Or.inl hb) },?_,
    h.memory.of_eq rfl rfl (size_le_write ..)⟩
  · rw [block_write_of_ne _ _ (by omega)]
    exact h.coherent.superBlock
  · rw [block_write_of_ne _ _ (by omega)]
    exact h.coherent.inodeMap
  · intro j hj
    simp only [blockSize] at hj ⊢
    by_cases hjk : j/8192 = k/(8192*8)
    · rw [hjk,block_write_self,← hjk]
      congr 1
      omega
    · rw [block_write_of_ne _ _ (by omega),hm j (by omega)]
      exact h.coherent.blockMap j hj
  · rw [← h.volume_eq]
    exact volume_write_meta { s with blockFreemap := m } _ hb

theorem Stands.store_inodeFreemap (h : Stands s c v) {m : Bitmap} {k : ℕ} (hk : k < 2^16)
    (hn : m.nbits = s.inodeFreemap.nbits) :
    Stands { s with
      inodeFreemap := m
      dev := s.dev.write (1 + k/(blockSize*8))
        (fun j => m.v (k/(blockSize*8)*blockSize + j)) } c
      { v with inodeUsed := bits m } := by
  have hz : k/(blockSize*8) = 0 := by
    simp only [blockSize]
    omega
  rw [hz]
  refine ⟨{ h.coherent with
    inodeBits := hn.trans h.coherent.inodeBits
    sized := h.coherent.sized.trans (size_le_write ..)
    superBlock := ?_
    inodeMap := ?_
    blockMap := ?_
    cached := fun i inode => h.coherent.cached_write _ (Or.inl (by norm_num)) },?_,
    h.memory.of_eq rfl rfl (size_le_write ..)⟩
  · rw [block_write_of_ne _ _ (by omega)]
    exact h.coherent.superBlock
  · intro j hj
    rw [Nat.add_zero,block_write_self,Nat.zero_mul,Nat.zero_add]
  · intro j hj
    rw [block_write_of_ne _ _ (by simp only [blockSize]; omega)]
    exact h.coherent.blockMap j hj
  · rw [← h.volume_eq]
    exact volume_write_meta { s with inodeFreemap := m } _ (by norm_num)

/-- The in-memory inode is replaced; one that is not dirty agrees with the device. -/
theorem Stands.set_inode (h : Stands s c v) {i : ℕ} {x : Inode} (hi : i < nrInodes)
    (hd : x.dirty = false → x.data = diskInode s.dev i)
    (hm : InMemory { s with inodes := Function.update s.inodes i (some x) } c') :
    Stands { s with inodes := Function.update s.inodes i (some x) } c' (v.setInode i x.data) := by
  refine ⟨{ h.coherent with cached := ?_ },?_,hm⟩
  · intro j inode' hj
    by_cases hji : j = i
    · subst hji
      simp only [Function.update_self,Option.some.injEq] at hj
      subst hj
      exact ⟨hi,hd⟩
    · simp only [Function.update_of_ne hji] at hj
      exact h.coherent.cached j inode' hj
  · have hv : inodeView { s with inodes := Function.update s.inodes i (some x) } =
        Function.update (inodeView s) i x.data := by
      funext j
      by_cases hji : j = i
      · subst hji
        simp only [inodeView,Function.update_self]
      · simp only [inodeView,Function.update_of_ne hji]
    rw [← h.volume_eq,Volume.setInode]
    simp only [volume]
    rw [hv]

/-- The in-memory inode is replaced by one with the same contents. -/
theorem Stands.set_inode_same (h : Stands s c v) {i : ℕ} {x : Inode} (hi : i < nrInodes)
    (hd : x.dirty = false → x.data = diskInode s.dev i) (hv : x.data = v.inode i)
    (hm : InMemory { s with inodes := Function.update s.inodes i (some x) } c') :
    Stands { s with inodes := Function.update s.inodes i (some x) } c' v := by
  have := h.set_inode hi hd hm
  rwa [hv,Volume.setInode,Function.update_eq_self] at this

theorem Stands.drop_inode (h : Stands s c v) {i : ℕ} {inode : Inode} (hc : s.inodes i = some inode)
    (hd : inode.dirty = false)
    (hm : InMemory { s with inodes := Function.update s.inodes i none } c') :
    Stands { s with inodes := Function.update s.inodes i none } c' v := by
  obtain ⟨hi,hdisk⟩ := h.coherent.cached i inode hc
  refine ⟨{ h.coherent with cached := ?_ },?_,hm⟩
  · intro j inode' hj
    by_cases hji : j = i
    · subst hji
      simp at hj
    · simp only [Function.update_of_ne hji] at hj
      exact h.coherent.cached j inode' hj
  · have hv : inodeView { s with inodes := Function.update s.inodes i none } = inodeView s := by
      funext j
      by_cases hji : j = i
      · subst hji
        simp only [inodeView,Function.update_self,hc,diskView,if_pos hi,hdisk hd]
      · simp only [inodeView,Function.update_of_ne hji]
    rw [← h.volume_eq]
    simp only [volume]
    rw [hv]

/-- The device with an inode written to its block. -/
def syncDevice (dev : Device) (i : ℕ) (d : Dinode) : Device :=
  dev.write (18 + i/inodesPerBlock)
    (copyIn (dev.block (18 + i/inodesPerBlock)) (testfsInodeToBlockOffset i) d.bytes)

/-- The inode is stored, and the other inodes of its block stay. -/
theorem diskInode_syncDevice (dev : Device) (i j : ℕ) (d : Dinode) :
    diskInode (syncDevice dev i d) j = if j = i then d else diskInode dev j := by
  by_cases hj : j = i
  · subst hj
    rw [if_pos rfl,diskInode,syncDevice,block_write_self]
    exact Dinode.load_copyIn _ _ _
  · rw [if_neg hj]
    by_cases hb : 18 + j/inodesPerBlock = 18 + i/inodesPerBlock
    · rw [diskInode,syncDevice,hb,block_write_self,diskInode,hb]
      refine Dinode.load_copyIn_of_disjoint _ _ ?_
      simp only [testfsInodeToBlockOffset,inodesPerBlock] at hb ⊢
      omega
    · exact diskInode_write_of_ne _ _ hb

/-- The inode block is rewritten with the in-memory inode, which is then no longer dirty. -/
theorem Stands.sync_inode (h : Stands s c v) {i : ℕ} {inode : Inode} (hc : s.inodes i = some inode) :
    Stands { s with
      dev := syncDevice s.dev i inode.data
      inodes := Function.update s.inodes i (some { inode with dirty := false }) } (c.clean i)
      (v.sync i) := by
  obtain ⟨hi,-⟩ := h.coherent.cached i inode hc
  have hne : ∀ b < 18, b ≠ 18 + i/inodesPerBlock :=
    fun b hb => (inodeBlock_ne hi (Or.inl hb)).symm
  refine ⟨{ h.coherent with
    sized := h.coherent.sized.trans (size_le_write ..)
    superBlock := ?_
    inodeMap := ?_
    blockMap := ?_
    cached := ?_ },?_,?_⟩
  · rw [syncDevice,block_write_of_ne _ _ (hne _ (by omega))]
    exact h.coherent.superBlock
  · rw [syncDevice,block_write_of_ne _ _ (hne _ (by omega))]
    exact h.coherent.inodeMap
  · intro k hk
    simp only [blockSize] at hk ⊢
    rw [syncDevice,block_write_of_ne _ _ (hne _ (by omega))]
    exact h.coherent.blockMap k hk
  · intro j inode' hj
    by_cases hji : j = i
    · subst hji
      simp only [Function.update_self,Option.some.injEq] at hj
      subst hj
      exact ⟨hi,fun _ => by rw [diskInode_syncDevice,if_pos rfl]⟩
    · simp only [Function.update_of_ne hji] at hj
      obtain ⟨h1,h2⟩ := h.coherent.cached j inode' hj
      exact ⟨h1,fun hd => by rw [h2 hd,diskInode_syncDevice,if_neg hji]⟩
  · rw [← h.volume_eq]
    simp only [volume,Volume.sync,Volume.mk.injEq,and_true]
    refine ⟨?_,?_,?_⟩
    · funext j
      by_cases hji : j = i
      · subst hji
        simp only [inodeView,Function.update_self,hc]
      · simp only [inodeView,Function.update_of_ne hji,diskView,diskInode_syncDevice,if_neg hji]
    · funext j
      by_cases hji : j = i
      · subst hji
        simp only [Function.update_self,diskView,if_pos hi,diskInode_syncDevice,if_pos,inodeView,hc]
      · simp only [Function.update_of_ne hji,diskView,diskInode_syncDevice,if_neg hji]
    · funext k
      by_cases hk : dataStart ≤ k
      · have hne : k ≠ 18 + i/inodesPerBlock :=
          Nat.ne_of_gt (lt_of_lt_of_le (inodeBlock_lt hi) hk)
        simp only [if_pos hk,syncDevice,block_write_of_ne _ _ hne]
      · simp only [if_neg hk]
  · refine (h.memory.of_eq (t := { s with dev := syncDevice s.dev i inode.data }) rfl rfl
      (size_le_write ..)).set_inode (x := { inode with dirty := false }) rfl rfl ?_ (by simp) ?_
    · exact h.memory.update_count hc rfl
    · intro j hj hd
      exact ⟨hd,hj⟩

end Changes

/-! ## Specifications of the primitives -/

section Primitives

variable {s : Testfs} {c : Memory} {v : Volume}

theorem wlp_readBlocks {start : ℤ} {Q : Region → Testfs → Prop} :
    Wlp (readBlocks start) s Q ↔
      (0 ≤ start ∧ start.toNat < s.dev.size → Q (s.dev.block start.toNat) s) := by
  simp only [readBlocks,Wlp.bind_iff,Wlp.get_iff,Wlp.guard_iff,Wlp.pure_iff]

theorem wlp_writeBlocks {r : Region} {start : ℤ} {Q : Unit → Testfs → Prop} :
    Wlp (writeBlocks r start) s Q ↔
      (0 ≤ start → Q () { s with dev := s.dev.write start.toNat r }) := by
  simp only [writeBlocks,Wlp.bind_iff,Wlp.guard_iff]
  exact Iff.rfl.imp Wlp.modify_iff

theorem wlp_inodeOf {i : ℕ} {Q : Inode → Testfs → Prop} :
    Wlp (inodeOf i) s Q ↔ ∀ inode, s.inodes i = some inode → Q inode s := by
  simp only [inodeOf,Wlp.bind_iff,Wlp.get_iff,Wlp.lift_iff]

theorem wlp_setInode {i : ℕ} {inode : Inode} {Q : Unit → Testfs → Prop} :
    Wlp (setInode i inode) s Q ↔
      Q () { s with inodes := Function.update s.inodes i (some inode) } :=
  Wlp.modify_iff

theorem Stands.inode_eq (h : Stands s c v) {i : ℕ} {inode : Inode} (hc : s.inodes i = some inode) :
    inode.data = v.inode i := by
  rw [← h.volume_eq]
  simp only [volume,inodeView,hc]

theorem Stands.block_eq (h : Stands s c v) {b : ℕ} (hb : dataStart ≤ b) :
    s.dev.block b = v.block b := by
  rw [← h.volume_eq]
  simp only [volume,if_pos hb]

theorem readBlocks_spec (h : Stands s c v) {b : ℤ} (hb : (dataStart : ℤ) ≤ b) :
    Wlp (readBlocks b) s (fun r t => t = s ∧ r = v.block b.toNat) := by
  rw [wlp_readBlocks]
  intro _
  exact ⟨rfl,h.block_eq (by omega)⟩

theorem writeBlocks_spec (h : Stands s c v) (r : Region) {b : ℤ} (hb : (dataStart : ℤ) ≤ b) :
    Wlp (writeBlocks r b) s (fun _ t => Stands t c (v.setBlock b.toNat r) ∧
      b.toNat < t.dev.size) := by
  rw [wlp_writeBlocks]
  intro _
  exact ⟨h.write_data r (by omega),lt_size_write ..⟩

theorem inodeOf_spec (h : Stands s c v) (i : ℕ) :
    Wlp (inodeOf i) s (fun inode t =>
      t = s ∧ s.inodes i = some inode ∧ inode.data = v.inode i) := by
  rw [wlp_inodeOf]
  intro inode hi
  exact ⟨rfl,hi,h.inode_eq hi⟩

theorem modifyDirty_spec (h : Stands s c v) {i : ℕ} (hm : i ∈ c.dirty) (f : Dinode → Dinode) :
    Wlp (modifyDirty i f) s (fun _ t =>
      Stands t c (v.setInode i (f (v.inode i))) ∧ Dirty t i ∧ i < nrInodes) := by
  rw [modifyDirty,Wlp.bind_iff]
  refine (inodeOf_spec h i).mono ?_
  rintro inode t ⟨rfl,hc,hv⟩
  rw [wlp_setInode,← hv]
  obtain ⟨hi,-⟩ := h.coherent.cached i inode hc
  refine ⟨h.set_inode (x := { inode with data := f inode.data, dirty := true }) hi (by simp) ?_,
    ⟨_,Function.update_self ..,rfl⟩,hi⟩
  exact h.memory.set_inode rfl rfl (h.memory.update_count hc rfl) (fun _ => hm) (fun _ _ hj => hj)

theorem modifyDinode_spec (h : Stands s c v) {i : ℕ} (hd : Dirty s i) (f : Dinode → Dinode) :
    Wlp (modifyDinode i f) s (fun _ t =>
      Stands t c (v.setInode i (f (v.inode i))) ∧ Dirty t i) := by
  rw [modifyDinode,Wlp.bind_iff]
  refine (inodeOf_spec h i).mono ?_
  rintro inode t ⟨rfl,hc,hv⟩
  obtain ⟨inode',hc',hdirty⟩ := hd
  obtain rfl : inode = inode' := by simpa [hc] using hc'
  obtain ⟨hi,-⟩ := h.coherent.cached i inode hc
  rw [wlp_setInode,← hv]
  refine ⟨h.set_inode (x := { inode with data := f inode.data }) hi (by simp [hdirty]) ?_,
    ⟨_,Function.update_self ..,hdirty⟩⟩
  exact h.memory.set_inode rfl rfl (h.memory.update_count hc rfl)
    (fun _ => h.memory.dirty_mem i ⟨inode,hc,hdirty⟩) (fun _ _ hj => hj)

theorem wlp_writeSuperBlock {Q : Unit → Testfs → Prop} :
    Wlp testfsWriteSuperBlock s Q ↔
      Q () { s with dev := s.dev.write 0 (copyIn (fun _ => 0) 0 s.sb.bytes) } := by
  simp only [testfsWriteSuperBlock,Wlp.bind_iff,Wlp.get_iff,wlp_writeBlocks,le_refl,true_imp_iff,
    Int.toNat_zero]

theorem wlp_writeBlockFreemap (hst : s.sb.blockFreemapStart = 2) {k : ℕ}
    {Q : Unit → Testfs → Prop} :
    Wlp (testfsWriteBlockFreemap k) s Q ↔
      Q () { s with
        dev := s.dev.write (2 + k/(blockSize*8))
          (fun j => s.blockFreemap.v (k/(blockSize*8)*blockSize + j)) } := by
  have he : ((s.sb.blockFreemapStart.toNat : ℤ) + (k/(blockSize*8) : ℕ)) =
      (2 + k/(blockSize*8) : ℕ) := by
    rw [hst,Nat.cast_add]
    rfl
  simp only [testfsWriteBlockFreemap,Wlp.bind_iff,Wlp.get_iff,wlp_writeBlocks,he,Int.toNat_natCast,
    Int.natCast_nonneg,true_imp_iff]

theorem wlp_writeInodeFreemap (hst : s.sb.inodeFreemapStart = 1) {k : ℕ}
    {Q : Unit → Testfs → Prop} :
    Wlp (testfsWriteInodeFreemap k) s Q ↔
      Q () { s with
        dev := s.dev.write (1 + k/(blockSize*8))
          (fun j => s.inodeFreemap.v (k/(blockSize*8)*blockSize + j)) } := by
  have he : ((s.sb.inodeFreemapStart.toNat : ℤ) + (k/(blockSize*8) : ℕ)) =
      (1 + k/(blockSize*8) : ℕ) := by
    rw [hst,Nat.cast_add]
    rfl
  simp only [testfsWriteInodeFreemap,Wlp.bind_iff,Wlp.get_iff,wlp_writeBlocks,he,Int.toNat_natCast,
    Int.natCast_nonneg,true_imp_iff]

section Bits

variable {b b' : Bitmap} {k : ℕ}

theorem bits_eq_update_true (hk : k < b.nbits) (hn : b'.nbits = b.nbits)
    (h : ∀ j, bitmapIsset b' j = (decide (j = k) || bitmapIsset b j)) :
    bits b' = Function.update (bits b) k true := by
  funext j
  rw [bits,h,hn]
  by_cases hj : j = k
  · subst hj
    simp [hk]
  · simp [hj,bits]

theorem bits_eq_update_false (hn : b'.nbits = b.nbits)
    (h : ∀ j, bitmapIsset b' j = (!decide (j = k) && bitmapIsset b j)) :
    bits b' = Function.update (bits b) k false := by
  funext j
  rw [bits,h,hn]
  by_cases hj : j = k
  · subst hj
    simp
  · simp [hj,bits]

theorem bits_of_lt (hk : k < b.nbits) : bits b k = bitmapIsset b k := by
  rw [bits,decide_eq_true hk,Bool.true_and]

/-- A bitmap that differs in one bit differs in one byte. -/
theorem byte_eq_of_isset (h : ∀ j, j ≠ k → bitmapIsset b' j = bitmapIsset b j) {x : ℕ}
    (hx : x ≠ k/8) : b'.v x = b.v x := by
  refine BitVec.eq_of_getLsbD_eq ?_
  intro o ho
  have hj := h (x*8 + o) (by omega)
  have hd : (x*8 + o)/8 = x := by omega
  have hm : (x*8 + o) % 8 = o := by omega
  rwa [isset_eq,isset_eq,hd,hm] at hj

end Bits

theorem Stands.blockUsed_eq (h : Stands s c v) : bits s.blockFreemap = v.blockUsed := by
  rw [← h.volume_eq]
  rfl

theorem Stands.inodeUsed_eq (h : Stands s c v) : bits s.inodeFreemap = v.inodeUsed := by
  rw [← h.volume_eq]
  rfl

theorem Stands.usedBlocks_eq (h : Stands s c v) : s.sb.usedBlockCount = v.usedBlocks := by
  rw [← h.volume_eq]
  rfl

theorem Stands.usedInodes_eq (h : Stands s c v) : s.sb.usedInodeCount = v.usedInodes := by
  rw [← h.volume_eq]
  rfl

theorem Stands.maxBlocks_eq (h : Stands s c v) : s.sb.maxFsBlocks = v.maxBlocks := by
  rw [← h.volume_eq]
  rfl

theorem Stands.store_usedBlocks (h : Stands s c v) (n : BitVec 32) :
    Stands { s with
      sb := { s.sb with usedBlockCount := n }
      dev := s.dev.write 0 (copyIn (fun _ => 0) 0
        (SuperBlock.bytes { s.sb with usedBlockCount := n })) } c { v with usedBlocks := n } := by
  have he : { v with usedBlocks := n } =
      { v with usedInodes := s.sb.usedInodeCount, usedBlocks := n } := by rw [h.usedInodes_eq]
  rw [he]
  exact h.store_counts _ n

theorem Stands.store_usedInodes (h : Stands s c v) (n : BitVec 32) :
    Stands { s with
      sb := { s.sb with usedInodeCount := n }
      dev := s.dev.write 0 (copyIn (fun _ => 0) 0
        (SuperBlock.bytes { s.sb with usedInodeCount := n })) } c { v with usedInodes := n } := by
  have he : { v with usedInodes := n } =
      { v with usedInodes := n, usedBlocks := s.sb.usedBlockCount } := by rw [h.usedBlocks_eq]
  rw [he]
  exact h.store_counts n _

theorem testfsGetBlockFreemap_spec (h : Stands s c v) :
    Wlp testfsGetBlockFreemap s (fun r t => match r with
      | none => Stands t c v ∧ ∀ k < 2^20, v.blockUsed k = true
      | some k => k < 2^20 ∧ v.blockUsed k = false ∧
        Stands t c { v with blockUsed := Function.update v.blockUsed k true }) := by
  simp only [testfsGetBlockFreemap,Wlp.bind_iff,Wlp.get_iff,Wlp.lift_iff]
  intro r hr
  have hbits := h.coherent.blockBits
  cases r with
  | none =>
    rw [Wlp.pure_iff]
    refine ⟨h,fun k hk => ?_⟩
    rw [← hbits] at hk
    rw [← h.blockUsed_eq,bits_of_lt hk]
    exact bitmapAlloc_none (by rw [hbits]; norm_num) hr k hk
  | some p =>
    obtain ⟨k,m⟩ := p
    obtain ⟨h1,h2,-,h4,h5⟩ := bitmapAlloc_some hr
    have hk := h1
    rw [hbits] at hk
    have hs := h.store_blockFreemap hk h4
      (fun j hj => byte_eq_of_isset (fun i hi => by rw [h5,decide_eq_false hi,Bool.false_or]) hj)
    rw [bits_eq_update_true h1 h4 h5,h.blockUsed_eq] at hs
    rw [← bits_of_lt h1,h.blockUsed_eq] at h2
    simp only [Wlp.bind_iff]
    refine Wlp.modify_iff.mpr ?_
    rw [wlp_writeBlockFreemap (by exact h.coherent.blockFreemapStart)]
    exact Wlp.pure_iff.mpr ⟨hk,h2,hs⟩

theorem testfsPutBlockFreemap_spec (h : Stands s c v) (k : ℕ) :
    Wlp (testfsPutBlockFreemap k) s (fun _ t => k < 2^20 ∧ v.blockUsed k = true ∧
      Stands t c { v with blockUsed := Function.update v.blockUsed k false }) := by
  simp only [testfsPutBlockFreemap,Wlp.bind_iff,Wlp.get_iff,Wlp.lift_iff]
  intro m hm
  obtain ⟨h1,h2,h4,h5⟩ := bitmapUnmark_some hm
  have hk := h1
  rw [h.coherent.blockBits] at hk
  have hs := h.store_blockFreemap hk h4
    (fun j hj => byte_eq_of_isset (fun i hi => by rw [h5,decide_eq_false hi]; simp) hj)
  rw [bits_eq_update_false h4 h5,h.blockUsed_eq] at hs
  rw [← bits_of_lt h1,h.blockUsed_eq] at h2
  refine Wlp.modify_iff.mpr ?_
  rw [wlp_writeBlockFreemap (by exact h.coherent.blockFreemapStart)]
  exact ⟨hk,h2,hs⟩

theorem testfsGetInodeFreemap_spec (h : Stands s c v) :
    Wlp testfsGetInodeFreemap s (fun r t => match r with
      | none => Stands t c v ∧ ∀ k < 2^16, v.inodeUsed k = true
      | some i => i < 2^16 ∧ v.inodeUsed i = false ∧ (∀ j < i, v.inodeUsed j = true) ∧
        Stands t c (v.takeInode i)) := by
  simp only [testfsGetInodeFreemap,Wlp.bind_iff,Wlp.get_iff,Wlp.lift_iff]
  intro r hr
  have hbits := h.coherent.inodeBits
  cases r with
  | none =>
    refine Wlp.pure_iff.mpr ⟨h,fun k hk => ?_⟩
    rw [← hbits] at hk
    rw [← h.inodeUsed_eq,bits_of_lt hk]
    exact bitmapAlloc_none (by rw [hbits]; norm_num) hr k hk
  | some p =>
    obtain ⟨i,m⟩ := p
    obtain ⟨h1,h2,h3,h4,h5⟩ := bitmapAlloc_some hr
    have hi := h1
    rw [hbits] at hi
    have hs := h.store_inodeFreemap hi h4
    rw [bits_eq_update_true h1 h4 h5,h.inodeUsed_eq] at hs
    rw [← bits_of_lt h1,h.inodeUsed_eq] at h2
    simp only [Wlp.bind_iff]
    refine Wlp.modify_iff.mpr ?_
    rw [wlp_writeInodeFreemap (by exact h.coherent.inodeFreemapStart)]
    refine Wlp.modify_iff.mpr (wlp_writeSuperBlock.mpr ?_)
    have hu := hs.store_usedInodes (s.sb.usedInodeCount + 1)
    refine Wlp.pure_iff.mpr ⟨hi,h2,fun j hj => ?_,?_⟩
    · rw [← h.inodeUsed_eq,bits_of_lt (hj.trans h1)]
      exact h3 j hj
    rw [Volume.takeInode,← h.usedInodes_eq]
    exact hu

theorem testfsPutInodeFreemap_spec (h : Stands s c v) (i : ℕ) :
    Wlp (testfsPutInodeFreemap i) s (fun _ t => v.inodeUsed i = true ∧
      0 < v.usedInodes.toNat ∧ Stands t c (v.dropInode i)) := by
  simp only [testfsPutInodeFreemap,Wlp.bind_iff,Wlp.get_iff,Wlp.lift_iff]
  intro m hm
  obtain ⟨h1,h2,h4,h5⟩ := bitmapUnmark_some hm
  have hi := h1
  rw [h.coherent.inodeBits] at hi
  have hs := h.store_inodeFreemap hi h4
  rw [bits_eq_update_false h4 h5,h.inodeUsed_eq] at hs
  rw [← bits_of_lt h1,h.inodeUsed_eq] at h2
  refine Wlp.modify_iff.mpr ?_
  rw [wlp_writeInodeFreemap (by exact h.coherent.inodeFreemapStart)]
  rw [Wlp.guard_iff,h.usedInodes_eq]
  intro hpos
  refine Wlp.modify_iff.mpr (wlp_writeSuperBlock.mpr ?_)
  have hu := hs.store_usedInodes (s.sb.usedInodeCount - 1)
  refine ⟨h2,hpos,?_⟩
  rw [Volume.dropInode,← h.usedInodes_eq]
  exact hu

theorem toInt_dataBlock {k : ℕ} (hk : k < 2^20) :
    ((146 : BitVec 32) + BitVec.ofNat 32 k).toInt = (dataStart + k : ℕ) := by
  have hn : ((146 : BitVec 32) + BitVec.ofNat 32 k).toNat = 146 + k := by
    have h146 : (146 : BitVec 32).toNat = 146 := rfl
    rw [BitVec.toNat_add,h146,BitVec.toNat_ofNat]
    omega
  rw [BitVec.toInt_eq_toNat_of_lt (by rw [hn]; norm_num; omega),hn]

theorem toInt_sub_dataStart {b : ℕ} (h1 : dataStart ≤ b) (h2 : b < 2^31) :
    (BitVec.ofInt 32 b - (146 : BitVec 32)).toInt = (b - dataStart : ℕ) := by
  have hn : (BitVec.ofInt 32 b - (146 : BitVec 32)).toNat = b - 146 := by
    have h146 : (146 : BitVec 32).toNat = 146 := rfl
    rw [BitVec.ofInt_natCast,BitVec.toNat_sub,BitVec.toNat_ofNat,h146]
    simp only [dataStart] at h1
    omega
  rw [BitVec.toInt_eq_toNat_of_lt (by rw [hn]; omega),hn]

/-- `testfs_alloc_block` takes a free block, or fails when there is no more room. -/
theorem testfsAllocBlock_spec (h : Stands s c v) :
    Wlp testfsAllocBlock s (fun r t =>
      (r < 0 ∧ Stands t c v ∧
        (v.maxBlocks.toNat ≤ v.usedBlocks.toNat ∨ ∀ k < 2^20, v.blockUsed k = true)) ∨
      ∃ k < 2^20, r = (dataStart + k : ℕ) ∧ v.blockUsed k = false ∧
        v.usedBlocks.toNat < v.maxBlocks.toNat ∧ Stands t c (v.takeBlock k)) := by
  simp only [testfsAllocBlock,Wlp.bind_iff,Wlp.get_iff,Wlp.ite_iff]
  rw [h.maxBlocks_eq,h.usedBlocks_eq]
  constructor
  · intro hfull
    exact Wlp.pure_iff.mpr (Or.inl ⟨by simp [Errno.ret],h,Or.inl hfull⟩)
  · intro hroom
    refine (testfsGetBlockFreemap_spec h).mono ?_
    intro r t ht
    cases r with
    | none => exact Wlp.pure_iff.mpr (Or.inl ⟨by simp [Errno.ret],ht.1,Or.inr ht.2⟩)
    | some k =>
      obtain ⟨h1,h2,ht⟩ := ht
      simp only [Wlp.bind_iff]
      refine Wlp.modify_iff.mpr (wlp_writeSuperBlock.mpr ?_)
      have hu := ht.store_usedBlocks (t.sb.usedBlockCount + 1)
      refine Wlp.pure_iff.mpr (Or.inr ⟨k,h1,?_,h2,by omega,?_⟩)
      · rw [h.coherent.dataBlocksStart,toInt_dataBlock h1]
      · have hn : v.usedBlocks = t.sb.usedBlockCount := ht.usedBlocks_eq.symm
        rw [Volume.takeBlock,hn]
        exact hu

/-- `testfs_free_block` clears a data block and gives it back. -/
theorem testfsFreeBlock_spec (h : Stands s c v) {b : ℕ} (h1 : dataStart ≤ b) (h2 : b < 2^31) :
    Wlp (testfsFreeBlock b) s (fun _ t => v.blockUsed (b - dataStart) = true ∧
      b < dataStart + 2^20 ∧ 0 < v.usedBlocks.toNat ∧
      Stands t c ((v.setBlock b (fun _ => 0)).dropBlock (b - dataStart))) := by
  simp only [testfsFreeBlock,Wlp.bind_iff]
  refine (writeBlocks_spec h (fun _ => 0) (b := (b : ℤ)) (by exact_mod_cast h1)).mono ?_
  rintro _ t ⟨ht,-⟩
  rw [Int.toNat_natCast] at ht
  rw [Wlp.get_iff,ht.coherent.dataBlocksStart,toInt_sub_dataStart h1 h2,Wlp.guard_iff]
  intro _
  rw [Int.toNat_natCast]
  refine (testfsPutBlockFreemap_spec ht _).mono ?_
  rintro _ t' ⟨h3,h4,ht'⟩
  rw [Wlp.guard_iff,ht.usedBlocks_eq]
  intro hpos
  refine Wlp.modify_iff.mpr (wlp_writeSuperBlock.mpr ?_)
  have hu := ht'.store_usedBlocks (t'.sb.usedBlockCount - 1)
  refine ⟨h4,by omega,hpos,?_⟩
  have hn : v.usedBlocks = t'.sb.usedBlockCount := ht'.usedBlocks_eq.symm
  rw [Volume.dropBlock,Volume.setBlock,hn]
  exact hu

theorem lt_nrInodes {i : ℕ} (h : i/inodesPerBlock < nrInodeBlocks) : i < nrInodes := by
  simp only [inodesPerBlock,nrInodeBlocks,nrInodes] at *
  omega

theorem Stands.inodeBlock_eq (h : Stands s c v) (i : ℕ) :
    ((s.sb.inodeBlocksStart.toNat : ℤ) + (i : ℤ)/(inodesPerBlock : ℤ)).toNat =
      18 + i/inodesPerBlock := by
  rw [h.coherent.inodeBlocksStart,← Int.natCast_ediv,← Nat.cast_add,Int.toNat_natCast]
  rfl

theorem testfsReadInodeBlock_spec (h : Stands s c v) (i : ℕ) :
    Wlp (testfsReadInodeBlock i) s (fun r t =>
      t = s ∧ i < nrInodes ∧ r = s.dev.block (18 + i/inodesPerBlock)) := by
  simp only [testfsReadInodeBlock,Wlp.bind_iff,Wlp.guard_iff,Wlp.get_iff,wlp_readBlocks]
  intro hi _
  rw [h.inodeBlock_eq i]
  exact ⟨trivial,lt_nrInodes hi,rfl⟩

/-- Reading an inode into memory does not change the volume. -/
theorem testfsGetInode_spec (h : Stands s c v) (i : ℕ) :
    Wlp (testfsGetInode i) s (fun _ t => Stands t (c.hold i) v) := by
  simp only [testfsGetInode,Wlp.bind_iff,Wlp.get_iff]
  cases hc : s.inodes i with
  | some inode =>
    obtain ⟨hi,hd⟩ := h.coherent.cached i inode hc
    have hv := h.inode_eq hc
    simp only [wlp_setInode]
    refine h.set_inode_same (x := { inode with iCount := inode.iCount + 1 }) hi hd hv ?_
    refine h.memory.set_inode rfl rfl ?_ (fun hx => h.memory.dirty_mem i ⟨inode,hc,hx⟩)
      (fun _ _ hj => hj)
    rw [Memory.hold,h.memory.count_self hc]
    rfl
  | none =>
    simp only [Wlp.bind_iff]
    refine (testfsReadInodeBlock_spec h i).mono ?_
    rintro r t ⟨rfl,hi,rfl⟩
    rw [wlp_setInode]
    refine h.set_inode_same hi (fun _ => rfl) ?_ ?_
    · rw [← h.volume_eq]
      simp only [volume,inodeView,hc,diskView,if_pos hi]
      rfl
    · refine h.memory.set_inode rfl rfl ?_ (by simp) (fun _ _ hj => hj)
      rw [Memory.hold,← h.memory.count_eq i,hc]
      rfl

theorem Stands.disk_eq (h : Stands s c v) {i : ℕ} {inode : Inode} (hc : s.inodes i = some inode)
    (hd : inode.dirty = false) : v.disk i = v.inode i := by
  obtain ⟨hi,hdisk⟩ := h.coherent.cached i inode hc
  rw [← h.inode_eq hc,hdisk hd,← h.volume_eq]
  simp only [volume,diskView,if_pos hi]

theorem Stands.clean_of_not_dirty (h : Stands s c v) {i : ℕ} {inode : Inode}
    (hc : s.inodes i = some inode) (hd : inode.dirty = false) : Stands s (c.clean i) v := by
  refine ⟨h.coherent,h.volume_eq,h.memory.curDir_eq,h.memory.size_le,h.memory.count_eq,?_⟩
  rintro j ⟨y,hy,hdy⟩
  refine ⟨h.memory.dirty_mem j ⟨y,hy,hdy⟩,?_⟩
  rintro rfl
  obtain rfl : inode = y := by simpa [hc] using hy
  rw [hd] at hdy
  cases hdy

theorem testfsSyncInode_spec (h : Stands s c v) (i : ℕ) :
    Wlp (testfsSyncInode i) s (fun _ t => Stands t (c.clean i) (v.sync i)) := by
  simp only [testfsSyncInode,Wlp.bind_iff,wlp_inodeOf]
  intro inode hc
  rw [Wlp.ite_iff]
  constructor
  · intro hd
    rw [Wlp.pure_iff,Volume.sync_of_eq v i (h.disk_eq hc hd)]
    exact h.clean_of_not_dirty hc hd
  · intro _
    simp only [Wlp.bind_iff]
    refine (testfsReadInodeBlock_spec h i).mono ?_
    rintro r t ⟨rfl,_,rfl⟩
    simp only [testfsWriteInodeBlock,Wlp.bind_iff,Wlp.guard_iff,Wlp.get_iff,wlp_writeBlocks,
      wlp_setInode]
    intro _ _
    rw [h.inodeBlock_eq i]
    exact h.sync_inode hc

/-- Dropping a reference to an inode does not change the volume. -/
theorem testfsPutInode_spec (h : Stands s c v) (i : ℕ) :
    Wlp (testfsPutInode i) s (fun _ t => Stands t (c.release i) v) := by
  simp only [testfsPutInode,Wlp.bind_iff,wlp_inodeOf]
  intro inode hc
  rw [Wlp.guard_iff]
  intro hd
  rw [Wlp.ite_iff]
  obtain ⟨hi,hdisk⟩ := h.coherent.cached i inode hc
  have hv := h.inode_eq hc
  have hcount := h.memory.count_self hc
  constructor
  · intro h0
    refine Wlp.modify_iff.mpr (h.drop_inode hc hd ?_)
    refine h.memory.drop_inode rfl rfl ?_ (fun j hj hm => ⟨hm,hj⟩)
    rw [Memory.release,hcount,Option.bind_some,if_pos h0]
  · intro h0
    rw [wlp_setInode]
    refine h.set_inode_same (x := { inode with iCount := inode.iCount - 1 }) hi hdisk hv ?_
    refine h.memory.set_inode rfl rfl ?_ (by simp [hd]) (fun j hj hm => ⟨hm,hj⟩)
    rw [Memory.release,hcount,Option.bind_some,if_neg h0]

/-- The inode that `testfs_create_inode` makes has a type and is otherwise as it was; there is none
when all are used. -/
theorem testfsCreateInode_spec (h : Stands s c v) (type : InodeType) :
    Wlp (testfsCreateInode type) s (fun r t => match r with
      | none => Stands t c v ∧ ∀ k < nrInodes, v.inodeUsed k = true
      | some i => i < nrInodes ∧ v.inodeUsed i = false ∧ (∀ j < i, v.inodeUsed j = true) ∧
        Stands t ((c.touch i).hold i)
        ((v.takeInode i).setInode i { v.inode i with iType := type.code })) := by
  simp only [testfsCreateInode,Wlp.bind_iff]
  refine (testfsGetInodeFreemap_spec h).mono ?_
  intro r t ht
  cases r with
  | none =>
    refine Wlp.pure_iff.mpr ⟨ht.1,fun k hk => ht.2 k (hk.trans ?_)⟩
    simp only [nrInodes]
    norm_num
  | some i =>
    obtain ⟨h1,h2,h3,ht⟩ := ht
    simp only [Wlp.ite_iff,Wlp.bind_iff]
    constructor
    · intro hbig
      refine (testfsPutInodeFreemap_spec ht i).mono ?_
      rintro _ t' ⟨-,-,ht'⟩
      refine Wlp.pure_iff.mpr ⟨?_,fun k hk => h3 k ?_⟩
      swap
      · simp only [nrInodes,nrInodeBlocks,inodesPerBlock] at hk hbig
        omega
      have he : (v.takeInode i).dropInode i = v := by
        simp only [Volume.dropInode,Volume.takeInode,Function.update_idem]
        rw [← h2,Function.update_eq_self,BitVec.add_sub_cancel]
      rwa [he] at ht'
    · intro hlt
      refine (testfsGetInode_spec (ht.touch i) i).mono ?_
      intro _ t' ht'
      refine (modifyDirty_spec ht' (Set.mem_insert i _) _).mono ?_
      rintro _ t'' ⟨ht'',-,hi⟩
      exact Wlp.pure_iff.mpr ⟨hi,h2,h3,ht''⟩

/-- The inode with one more block. -/
def countUp (d : Dinode) : Dinode := { d with blockCount := d.blockCount + 1 }

def countDown (d : Dinode) : Dinode := { d with blockCount := d.blockCount - 1 }

theorem testfsAllocBlockForInode_spec (h : Stands s c v) {i : ℕ} (hm : i ∈ c.dirty) :
    Wlp (testfsAllocBlockForInode i) s (fun r t =>
      (r < 0 ∧ Stands t c v ∧
        (v.maxBlocks.toNat ≤ v.usedBlocks.toNat ∨ ∀ k < 2^20, v.blockUsed k = true)) ∨
      ∃ k < 2^20, r = (dataStart + k : ℕ) ∧ v.blockUsed k = false ∧
        v.usedBlocks.toNat < v.maxBlocks.toNat ∧ Dirty t i ∧ i < nrInodes ∧
        Stands t c ((v.takeBlock k).setInode i (countUp (v.inode i)))) := by
  simp only [testfsAllocBlockForInode,Wlp.bind_iff]
  refine (testfsAllocBlock_spec h).mono ?_
  rintro r t (⟨hr,ht,hfull⟩ | ⟨k,hk,rfl,h2,h3,ht⟩)
  · rw [if_neg (by omega),Wlp.pure_iff]
    exact Or.inl ⟨hr,ht,hfull⟩
  · rw [if_pos (by omega),Wlp.bind_iff]
    refine (modifyDirty_spec ht hm _).mono ?_
    rintro _ t' ⟨ht',hd,hi⟩
    exact Wlp.pure_iff.mpr (Or.inr ⟨k,hk,rfl,h2,h3,hd,hi,ht'⟩)

theorem testfsFreeBlockFromInode_spec (h : Stands s c v) {i : ℕ} (hm : i ∈ c.dirty) {b : ℕ}
    (h1 : dataStart ≤ b) (h2 : b < 2^31) :
    Wlp (testfsFreeBlockFromInode i b) s (fun _ t => v.blockUsed (b - dataStart) = true ∧
      b < dataStart + 2^20 ∧ 0 < v.usedBlocks.toNat ∧ Dirty t i ∧
      Stands t c (((v.setBlock b (fun _ => 0)).dropBlock (b - dataStart)).setInode i
        (countDown (v.inode i)))) := by
  have hb : (b : ℤ) ≠ 0 := by
    simp only [dataStart] at h1
    omega
  rw [testfsFreeBlockFromInode,if_neg hb,Wlp.bind_iff]
  refine (testfsFreeBlock_spec h h1 h2).mono ?_
  rintro _ t ⟨h3,h4,h5,ht⟩
  refine (modifyDirty_spec ht hm _).mono ?_
  rintro _ t' ⟨ht',hd,-⟩
  exact ⟨h3,h4,h5,hd,ht'⟩

end Primitives

end FsVolume
end OsLabs

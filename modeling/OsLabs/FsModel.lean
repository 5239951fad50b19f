import Mathlib.Data.BitVec
import Mathlib.Data.Int.Basic
import Mathlib.Tactic
import OsLabs.Bytes
import OsLabs.BitmapModel

/-!
# The file system: device, super block, inodes and blocks

The model of `fs/block.c`, `fs/super.c`, `fs/inode.c` and `fs/read_write.c`. The device is the
sequence of blocks of the image file, and everything on it is stored as bytes: the super block,
the two free maps, the packed inodes, the indirect blocks and the data. A pointer to an
in-memory inode is its number, looked up in the hash table. A program returns nothing when an
assertion fails, when the source calls `EXIT`, and when it leaves the defined behaviour of C
(a dangling pointer, a `memcpy` past the end of a block). `s32` and `u32` fields are `BitVec 32`;
local integers are `ℤ`, wrapped where the source narrows them. `malloc` succeeds for every size
up to `PTRDIFF_MAX`.
-/

namespace OsLabs
namespace FsModel

open Bytes BitmapModel

abbrev blockSize : ℕ := 8192
abbrev nrDirectBlocks : ℕ := 10
abbrev nrIndirectBlocks : ℕ := 2048
abbrev nrInodeBlocks : ℕ := 128
abbrev inodesPerBlock : ℕ := 128
abbrev inodeFreemapSize : ℕ := 1
abbrev blockFreemapSize : ℕ := 16

instance : NeZero nrDirectBlocks := ⟨by decide⟩

instance : NeZero nrIndirectBlocks := ⟨by decide⟩

inductive Errno
  | noent | nomem | exist | notdir | isdir | inval | nospc | nosys | notempty
  deriving DecidableEq

/-- The negated error number, as the functions return it. -/
def Errno.ret : Errno → ℤ
  | noent => -2
  | nomem => -12
  | exist => -17
  | notdir => -20
  | isdir => -21
  | inval => -22
  | nospc => -28
  | nosys => -38
  | notempty => -39

/-- Conversion to `int`. -/
def toInt32 (z : ℤ) : ℤ := z.bmod (2^32)

/-- Conversion to `off_t`, and the result of a computation in it. -/
def toInt64 (z : ℤ) : ℤ := z.bmod (2^64)

/-- Conversion to `size_t`, and the result of a computation in it. -/
def toSize (z : ℤ) : ℕ := (z % 2^64).toNat

/-! ## Data -/

inductive InodeType
  | none | file | dir
  deriving DecidableEq

def InodeType.code : InodeType → BitVec 32
  | none => 0
  | file => 1
  | dir => 2

/-- `struct dinode`. -/
structure Dinode where
  iType : BitVec 32
  iBlockNr : Fin nrDirectBlocks → BitVec 32
  iIndirect : BitVec 32
  iDindirect : BitVec 32
  blockCount : BitVec 32
  iSize : BitVec 64
  deriving DecidableEq

def Dinode.zero : Dinode where
  iType := 0
  iBlockNr := fun _ => 0
  iIndirect := 0
  iDindirect := 0
  blockCount := 0
  iSize := 0

/-- The 32-bit fields of a `struct dinode` in their order. -/
def Dinode.words (d : Dinode) : List (BitVec 32) :=
  d.iType::(List.ofFn d.iBlockNr ++ [d.iIndirect,d.iDindirect,d.blockCount])

def Dinode.bytes (d : Dinode) : List Byte :=
  d.words.flatMap stored ++ stored d.iSize

def Dinode.load (m : Region) (o : ℕ) : Dinode where
  iType := Bytes.load 32 m o
  iBlockNr := fun k => Bytes.load 32 m (o + 4*(1 + k.val))
  iIndirect := Bytes.load 32 m (o + 4*11)
  iDindirect := Bytes.load 32 m (o + 4*12)
  blockCount := Bytes.load 32 m (o + 4*13)
  iSize := Bytes.load 64 m (o + 56)

/-- `struct inode`, without the number that finds it in the hash table. -/
structure Inode where
  data : Dinode
  dirty : Bool
  iCount : ℤ
  deriving DecidableEq

/-- `struct dsuper_block`. -/
structure SuperBlock where
  inodeFreemapStart : BitVec 32
  blockFreemapStart : BitVec 32
  inodeBlocksStart : BitVec 32
  dataBlocksStart : BitVec 32
  usedInodeCount : BitVec 32
  usedBlockCount : BitVec 32
  maxFsBlocks : BitVec 64
  deriving DecidableEq

def SuperBlock.bytes (sb : SuperBlock) : List Byte :=
  [sb.inodeFreemapStart,sb.blockFreemapStart,sb.inodeBlocksStart,sb.dataBlocksStart,
    sb.usedInodeCount,sb.usedBlockCount].flatMap stored ++ stored sb.maxFsBlocks

def SuperBlock.load (m : Region) : SuperBlock where
  inodeFreemapStart := Bytes.load 32 m 0
  blockFreemapStart := Bytes.load 32 m 4
  inodeBlocksStart := Bytes.load 32 m 8
  dataBlocksStart := Bytes.load 32 m 12
  usedInodeCount := Bytes.load 32 m 16
  usedBlockCount := Bytes.load 32 m 20
  maxFsBlocks := Bytes.load 64 m 24

/-- The image file: its number of blocks and their contents. -/
structure Device where
  size : ℕ
  block : ℕ → Region

def Device.write (dev : Device) (start : ℕ) (block : Region) : Device where
  size := max dev.size (start + 1)
  block := Function.update dev.block start block

def Device.zeroBlocks (dev : Device) (start : ℕ) : ℕ → Device
  | 0 => dev
  | n+1 => (dev.zeroBlocks start n).write (start + n) (fun _ => 0)

/-- A mounted file system: the in-memory super block with its free maps, the device, the hash
table of inodes, and the current directory of the command interpreter. -/
structure Testfs where
  sb : SuperBlock
  dev : Device
  inodeFreemap : Bitmap
  blockFreemap : Bitmap
  inodes : ℕ → Option Inode
  curDir : ℕ

abbrev FsM := StateT Testfs Option

/-! ## Blocks -/

def readBlocks (start : ℤ) : FsM Region := do
  let s ← get
  guard (0 ≤ start ∧ start.toNat < s.dev.size)
  return s.dev.block start.toNat

def writeBlocks (block : Region) (start : ℤ) : FsM Unit := do
  guard (0 ≤ start)
  modify fun s => { s with dev := s.dev.write start.toNat block }

/-! ## Super block and free maps -/

def testfsWriteSuperBlock : FsM Unit := do
  let s ← get
  writeBlocks (copyIn (fun _ => 0) 0 s.sb.bytes) 0

def testfsWriteInodeFreemap (inodeNr : ℕ) : FsM Unit := do
  let s ← get
  let nr := inodeNr/(blockSize*8)
  writeBlocks (fun k => s.inodeFreemap.v (nr*blockSize + k)) (s.sb.inodeFreemapStart.toNat + nr)

def testfsWriteBlockFreemap (blockNr : ℕ) : FsM Unit := do
  let s ← get
  let nr := blockNr/(blockSize*8)
  writeBlocks (fun k => s.blockFreemap.v (nr*blockSize + k)) (s.sb.blockFreemapStart.toNat + nr)

/-- The index that was marked, or `none` for `-ENOSPC`. -/
def testfsGetBlockFreemap : FsM (Option ℕ) := do
  let s ← get
  match ← StateT.lift (bitmapAlloc s.blockFreemap) with
  | none => return none
  | some (index,freemap) => do
    modify fun s => { s with blockFreemap := freemap }
    testfsWriteBlockFreemap index
    return some index

def testfsPutBlockFreemap (blockNr : ℕ) : FsM Unit := do
  let s ← get
  let freemap ← StateT.lift (bitmapUnmark s.blockFreemap blockNr)
  modify fun s => { s with blockFreemap := freemap }
  testfsWriteBlockFreemap blockNr

def testfsGetInodeFreemap : FsM (Option ℕ) := do
  let s ← get
  match ← StateT.lift (bitmapAlloc s.inodeFreemap) with
  | none => return none
  | some (index,freemap) => do
    modify fun s => { s with inodeFreemap := freemap }
    testfsWriteInodeFreemap index
    modify fun s => { s with sb := { s.sb with usedInodeCount := s.sb.usedInodeCount + 1 } }
    testfsWriteSuperBlock
    return some index

def testfsPutInodeFreemap (inodeNr : ℕ) : FsM Unit := do
  let s ← get
  let freemap ← StateT.lift (bitmapUnmark s.inodeFreemap inodeNr)
  modify fun s => { s with inodeFreemap := freemap }
  testfsWriteInodeFreemap inodeNr
  guard (0 < s.sb.usedInodeCount.toNat)
  modify fun s => { s with sb := { s.sb with usedInodeCount := s.sb.usedInodeCount - 1 } }
  testfsWriteSuperBlock

def testfsAllocBlock : FsM ℤ := do
  let s ← get
  if s.sb.maxFsBlocks.toNat ≤ s.sb.usedBlockCount.toNat then return Errno.nospc.ret
  else do
    match ← testfsGetBlockFreemap with
    | none => return Errno.nospc.ret
    | some phyBlockNr => do
      modify fun s => { s with sb := { s.sb with usedBlockCount := s.sb.usedBlockCount + 1 } }
      testfsWriteSuperBlock
      return (s.sb.dataBlocksStart + BitVec.ofNat 32 phyBlockNr).toInt

def testfsFreeBlock (blockNr : ℤ) : FsM Unit := do
  writeBlocks (fun _ => 0) blockNr
  let s ← get
  let nr := (BitVec.ofInt 32 blockNr - s.sb.dataBlocksStart).toInt
  guard (0 ≤ nr)
  testfsPutBlockFreemap nr.toNat
  guard (0 < s.sb.usedBlockCount.toNat)
  modify fun s => { s with sb := { s.sb with usedBlockCount := s.sb.usedBlockCount - 1 } }
  testfsWriteSuperBlock

/-! ## Inodes -/

/-- The in-memory inode that a pointer refers to. -/
def inodeOf (i : ℕ) : FsM Inode := do
  let s ← get
  StateT.lift (s.inodes i)

def setInode (i : ℕ) (inode : Inode) : FsM Unit :=
  modify fun s => { s with inodes := Function.update s.inodes i (some inode) }

/-- An assignment to fields of `in->in`; the flags stay as they are. -/
def modifyDinode (i : ℕ) (f : Dinode → Dinode) : FsM Unit := do
  let inode ← inodeOf i
  setInode i { inode with data := f inode.data }

/-- An assignment to fields of `in->in` together with `i_flags |= I_FLAGS_DIRTY`. -/
def modifyDirty (i : ℕ) (f : Dinode → Dinode) : FsM Unit := do
  let inode ← inodeOf i
  setInode i { inode with data := f inode.data, dirty := true }

def testfsReadInodeBlock (i : ℕ) : FsM Region := do
  guard (i/inodesPerBlock < nrInodeBlocks)
  let s ← get
  readBlocks (s.sb.inodeBlocksStart.toNat + i/inodesPerBlock)

def testfsWriteInodeBlock (i : ℕ) (block : Region) : FsM Unit := do
  guard (i/inodesPerBlock < nrInodeBlocks)
  let s ← get
  writeBlocks block (s.sb.inodeBlocksStart.toNat + i/inodesPerBlock)

def testfsInodeToBlockOffset (i : ℕ) : ℕ := i % inodesPerBlock*64

def testfsGetInode (i : ℕ) : FsM Unit := do
  let s ← get
  match s.inodes i with
  | some inode => setInode i { inode with iCount := inode.iCount + 1 }
  | none => do
    let block ← testfsReadInodeBlock i
    setInode i
      { data := Dinode.load block (testfsInodeToBlockOffset i), dirty := false, iCount := 1 }

def testfsSyncInode (i : ℕ) : FsM Unit := do
  let inode ← inodeOf i
  if inode.dirty = false then return ()
  else do
    let block ← testfsReadInodeBlock i
    testfsWriteInodeBlock i (copyIn block (testfsInodeToBlockOffset i) inode.data.bytes)
    setInode i { inode with dirty := false }

def testfsPutInode (i : ℕ) : FsM Unit := do
  let inode ← inodeOf i
  guard (inode.dirty = false)
  if inode.iCount - 1 = 0 then
    modify fun s => { s with inodes := Function.update s.inodes i none }
  else setInode i { inode with iCount := inode.iCount - 1 }

/-- The new inode, or `none` for `-ENOSPC`. -/
def testfsCreateInode (type : InodeType) : FsM (Option ℕ) := do
  match ← testfsGetInodeFreemap with
  | none => return none
  | some inodeNr =>
    if nrInodeBlocks ≤ inodeNr/inodesPerBlock then do
      -- undo the freemap and return error
      testfsPutInodeFreemap inodeNr
      return none
    else do
      testfsGetInode inodeNr
      modifyDirty inodeNr fun d => { d with iType := type.code }
      return some inodeNr

def testfsAllocBlockForInode (i : ℕ) : FsM ℤ := do
  let phyBlockNr ← testfsAllocBlock
  if 0 ≤ phyBlockNr then do
    modifyDirty i fun d => { d with blockCount := d.blockCount + 1 }
    return phyBlockNr
  else return phyBlockNr

def testfsFreeBlockFromInode (i : ℕ) (phyBlockNr : ℤ) : FsM Unit :=
  if phyBlockNr = 0 then return ()
  else do
    testfsFreeBlock phyBlockNr
    modifyDirty i fun d => { d with blockCount := d.blockCount - 1 }

/-! ## Reading and writing -/

/-- A physical block that was looked up: its number, and its contents (zero if it is not
allocated on disk). -/
def readPhysical (phyBlockNr : ℤ) : FsM (ℤ × Region) :=
  if 0 < phyBlockNr then do
    let block ← readBlocks phyBlockNr
    return (phyBlockNr,block)
  else return (phyBlockNr,fun _ => 0)

def testfsReadBlock (i : ℕ) (logBlockNr : ℤ) : FsM (ℤ × Region) := do
  guard (0 ≤ logBlockNr)
  let inode ← inodeOf i
  if logBlockNr < nrDirectBlocks then
    readPhysical (inode.data.iBlockNr (Fin.ofNat nrDirectBlocks logBlockNr.toNat)).toInt
  else if nrIndirectBlocks ≤ logBlockNr - nrDirectBlocks then
    return (Errno.nosys.ret,fun _ => 0)
  else if 0 < inode.data.iIndirect.toInt then do
    let block ← readBlocks inode.data.iIndirect.toInt
    readPhysical (loadInt block (logBlockNr - nrDirectBlocks).toNat).toInt
  else readPhysical 0

/-- The result and the bytes that were copied to `buf`. -/
def testfsReadData (i : ℕ) (start : ℤ) (size : ℕ) : FsM (ℤ × List Byte) := do
  let inode ← inodeOf i
  let blockNr := start.tdiv blockSize
  let blockIx := start.tmod blockSize
  let size := if inode.data.iSize.toInt < toInt64 (start + toInt64 size) then
      toSize (inode.data.iSize.toInt - start)
    else size
  if blockSize < toSize (blockIx + size) then return (Errno.nosys.ret,[])
  else do
    let (ret,block) ← testfsReadBlock i (toInt32 blockNr)
    if ret < 0 then return (ret,[])
    else do
      guard (0 ≤ blockIx ∧ blockIx.toNat + size ≤ blockSize)
      return (size,copyOut block blockIx.toNat size)

/-- The second half of `testfs_allocate_block`, from the allocation of the direct block that
the entry `logBlockNr` of the indirect block will refer to. -/
def allocateEntry (i logBlockNr : ℕ) (indirect : Region) (indirectAllocated : Bool)
    (block : Region) : FsM (ℤ × Region) := do
  guard (loadInt indirect logBlockNr = 0)
  let phyBlockNr ← testfsAllocBlockForInode i
  let inode ← inodeOf i
  if 0 ≤ phyBlockNr then do
    writeBlocks (storeInt indirect logBlockNr (BitVec.ofInt 32 phyBlockNr))
      inode.data.iIndirect.toInt
    return (phyBlockNr,block)
  else if indirectAllocated then do
    -- free the indirect block that was previously allocated
    testfsFreeBlockFromInode i inode.data.iIndirect.toInt
    modifyDinode i fun d => { d with iIndirect := 0 }
    return (phyBlockNr,block)
  else return (phyBlockNr,block)

/-- The result and the contents of `block`. -/
def testfsAllocateBlock (i : ℕ) (logBlockNr : ℤ) : FsM (ℤ × Region) := do
  guard (0 ≤ logBlockNr)
  let (phyBlockNr,block) ← testfsReadBlock i logBlockNr
  if phyBlockNr ≠ 0 then return (phyBlockNr,block)
  else do
    let inode ← inodeOf i
    if logBlockNr < nrDirectBlocks then do
      let k := Fin.ofNat nrDirectBlocks logBlockNr.toNat
      guard (inode.data.iBlockNr k = 0)
      let phyBlockNr ← testfsAllocBlockForInode i
      if 0 ≤ phyBlockNr then do
        modifyDinode i fun d =>
          { d with iBlockNr := Function.update d.iBlockNr k (BitVec.ofInt 32 phyBlockNr) }
        return (phyBlockNr,block)
      else return (phyBlockNr,block)
    else if nrIndirectBlocks ≤ logBlockNr - nrDirectBlocks then return (Errno.nosys.ret,block)
    else if inode.data.iIndirect = 0 then do
      let phyBlockNr ← testfsAllocBlockForInode i
      if phyBlockNr < 0 then return (phyBlockNr,block)
      else do
        modifyDinode i fun d => { d with iIndirect := BitVec.ofInt 32 phyBlockNr }
        allocateEntry i (logBlockNr - nrDirectBlocks).toNat (fun _ => 0) true block
    else do
      let indirect ← readBlocks inode.data.iIndirect.toInt
      allocateEntry i (logBlockNr - nrDirectBlocks).toNat indirect false block

def testfsWriteData (i : ℕ) (buf : List Byte) (start : ℤ) : FsM ℤ := do
  let blockNr := start.tdiv blockSize
  let blockIx := start.tmod blockSize
  let size := buf.length
  if blockSize < toSize (blockIx + size) then return Errno.nosys.ret
  else do
    let (ret,block) ← testfsAllocateBlock i (toInt32 blockNr)
    if ret < 0 then return ret
    else do
      guard (0 ≤ blockIx ∧ blockIx.toNat + size ≤ blockSize)
      writeBlocks (copyIn block blockIx.toNat buf) ret
      modifyDirty i fun d =>
        if 0 < size then
          { d with iSize := BitVec.ofInt 64 (max d.iSize.toInt (toInt64 (start + size))) }
        else d
      return size

/-- The loop over the direct blocks, for `n` rounds from `k` on. -/
def freeDirect (i : ℕ) (eBlockNr : ℤ) : ℕ → ℕ → FsM Unit
  | 0, _ => return ()
  | n+1, k =>
    if (k : ℤ) < eBlockNr then do
      let inode ← inodeOf i
      let blockNr := inode.data.iBlockNr (Fin.ofNat nrDirectBlocks k)
      if blockNr = 0 then freeDirect i eBlockNr n (k+1)
      else do
        testfsFreeBlockFromInode i blockNr.toInt
        modifyDinode i fun d =>
          { d with iBlockNr := Function.update d.iBlockNr (Fin.ofNat nrDirectBlocks k) 0 }
        freeDirect i eBlockNr n (k+1)
    else return ()

/-- The loop over the entries of the indirect block, whose copy `block` it clears. -/
def freeEntries (i : ℕ) (eBlockNr : ℤ) : ℕ → ℕ → Region → FsM Region
  | 0, _, block => return block
  | n+1, k, block =>
    if (k : ℤ) < eBlockNr then
      if loadInt block k = 0 then freeEntries i eBlockNr n (k+1) block
      else do
        testfsFreeBlockFromInode i (loadInt block k).toInt
        freeEntries i eBlockNr n (k+1) (storeInt block k 0)
    else return block

/-- The part of `testfs_free_blocks` that removes the indirect block. -/
def freeIndirect (i : ℕ) (eBlockNr : ℤ) : FsM Unit := do
  let inode ← inodeOf i
  if 0 < inode.data.iIndirect.toInt then do
    guard (0 < eBlockNr)
    let block ← readBlocks inode.data.iIndirect.toInt
    let _ ← freeEntries i eBlockNr nrIndirectBlocks 0 block
    testfsFreeBlockFromInode i inode.data.iIndirect.toInt
    modifyDinode i fun d => { d with iIndirect := 0 }
  else return ()

def testfsFreeBlocks (i : ℕ) : FsM ℤ := do
  let inode ← inodeOf i
  let eBlockNr := toInt32 ((toInt64 (inode.data.iSize.toInt + blockSize - 1)).tdiv blockSize)
  freeDirect i eBlockNr nrDirectBlocks 0
  let eBlockNr := toInt32 (eBlockNr - nrDirectBlocks)
  freeIndirect i eBlockNr
  let eBlockNr := toInt32 (eBlockNr - nrIndirectBlocks)
  if 0 < eBlockNr then return Errno.nosys.ret
  else do
    modifyDirty i fun d => { d with iSize := 0 }
    return 0

/-- With the program that puts the inode as a parameter. -/
def testfsRemoveInodeWith {m : Type → Type} [Monad m] [MonadLiftT FsM m] (put : ℕ → m Unit) (i : ℕ) :
    m Unit := do
  let _ ← testfsFreeBlocks i
  let inode ← inodeOf i
  (guard (inode.data.blockCount = 0) : FsM Unit)
  modifyDirty i fun _ => Dinode.zero
  testfsPutInodeFreemap i
  testfsSyncInode i
  put i

abbrev testfsRemoveInode : ℕ → FsM Unit := testfsRemoveInodeWith testfsPutInode

end FsModel
end OsLabs

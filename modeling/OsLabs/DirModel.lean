import Mathlib.Data.BitVec
import Mathlib.Tactic
import OsLabs.Bytes
import OsLabs.BitmapModel
import OsLabs.FsModel

/-!
# The file system: directories and commands

The model of `fs/dir.c`, `fs/file.c`, the conversions of `fs/common.c` and the making and
mounting of an image (`fs/mktestfs.c`, `fs/testfs.c`). The loops over the entries of a directory
that stop at the first entry with some property are one loop, `scanDirents`, with the property
as a parameter; `strcmp` on a name without terminator leaves the model.

The functions from which `testfs_put_inode` is called have the program that puts an inode as a
parameter, in any monad to which the programs of the file system can be lifted. With
`testfs_put_inode` itself they are those of the source; with a program that reports the inodes
it is called on they show its calls.
-/

namespace OsLabs
namespace DirModel

open Bytes BitmapModel FsModel

variable {m : Type → Type} [Monad m] [MonadLiftT FsM m] (put : ℕ → m Unit)

/-- `struct dirent` with the name that follows it. -/
structure Dirent where
  dNameLen : BitVec 32
  dInodeNr : BitVec 32
  dName : List Byte

def Dirent.live (d : Dirent) : Bool := 0 ≤ d.dInodeNr.toInt

def dot : CString := ⟨[46],by decide⟩

def dotdot : CString := ⟨[46,46],by decide⟩

/-- `strcmp(D_NAME(d), name) == 0`. -/
def Dirent.hasName (d : Dirent) (name : CString) : Option Bool :=
  (toCString d.dName).map (fun n => n = name)

/-- `INVALID_INODE_NR`. -/
def invalidInodeNr : BitVec 32 := BitVec.ofInt 32 (-1)

/-- The bytes of a dirent structure with its name. -/
def direntBytes (len inodeNr : BitVec 32) (name : List Byte) : List Byte :=
  stored len ++ stored inodeNr ++ name

/-! ## Reading directories -/

/-- `assert(testfs_inode_get_type(dir) == I_DIR)`. -/
def assertDir (dir : ℕ) : FsM Unit := do
  let inode ← inodeOf dir
  guard (inode.data.iType = InodeType.dir.code)

/-- The entry at an offset and the offset after it, `none` for `NULL`. -/
def testfsNextDirent (dir : ℕ) (offset : ℤ) : FsM (Option (Dirent × ℤ)) := do
  assertDir dir
  let inode ← inodeOf dir
  if inode.data.iSize.toInt ≤ offset then return none
  else do
    let (ret,d) ← testfsReadData dir offset 8
    if ret < 0 then return none
    else do
      guard (d.length = 8)
      let dNameLen := BitVec.ofNat 32 (leValue (d.take 4))
      let dInodeNr := BitVec.ofNat 32 (leValue (d.drop 4))
      guard (0 < dNameLen.toInt)
      let (ret,dName) ← testfsReadData dir (offset + 8) dNameLen.toNat
      if ret < 0 then return none
      else return some ({ dNameLen, dInodeNr, dName },offset + 8 + dNameLen.toNat)

/-- Loop over the entries from an offset to the first one with a property: that entry, if there
is one, and the offset at which the loop stopped. -/
def scanDirents (dir : ℕ) (p : Dirent → Option Bool) : ℕ → ℤ → FsM (Option Dirent × ℤ)
  | 0, _ => failure
  | n+1, offset => do
    match ← testfsNextDirent dir offset with
    | none => return (none,offset)
    | some (d,next) => do
      let stop ← StateT.lift (p d)
      if stop then return (some d,offset) else scanDirents dir p n next

/-- The loop from the start of the directory. An entry has at least 9 bytes, so that the size
bounds the number of rounds. -/
def scanDir (dir : ℕ) (p : Dirent → Option Bool) : FsM (Option Dirent × ℤ) := do
  let inode ← inodeOf dir
  scanDirents dir p (inode.data.iSize.toNat + 1) 0

/-- The entry is live and has the name. -/
def isEntry (name : CString) (d : Dirent) : Option Bool :=
  if d.live then d.hasName name else some false

def testfsFindDirent (dir inodeNr : ℕ) : FsM (Option Dirent) := do
  assertDir dir
  let (d,_) ← scanDir dir fun d => some (d.dInodeNr.toInt = inodeNr)
  return d

def testfsDirNameToInodeNr (dir : ℕ) (name : CString) : FsM ℤ := do
  assertDir dir
  let (d,_) ← scanDir dir (isEntry name)
  match d with
  | none => return Errno.noent.ret
  | some d => return d.dInodeNr.toInt

/-! ## Changing directories -/

def testfsWriteDirent (dir : ℕ) (name : CString) (len : ℤ) (inodeNr : ℕ) (offset : ℤ) : FsM ℤ :=
  if 2^63 ≤ toSize (8 + len) then return Errno.nomem.ret
  else do
    -- strcpy stays inside of the dirent
    guard (len = name.1.length + 1)
    testfsWriteData dir
      (direntBytes (BitVec.ofInt 32 len) (BitVec.ofNat 32 inodeNr) (CString.bytes name)) offset

/-- `testfs_add_dirent` stops at a live entry with the name and at a deleted one of its length. -/
def stopsAdd (name : CString) (len : ℤ) (d : Dirent) : Option Bool :=
  if d.live then d.hasName name else some (d.dNameLen.toInt = len)

def testfsAddDirent (dir : ℕ) (name : CString) (inodeNr : ℕ) : FsM ℤ := do
  let len := toInt32 (name.1.length + 1)
  assertDir dir
  let (d,pOffset) ← scanDir dir (stopsAdd name len)
  match d with
  | some d =>
    if d.live then return Errno.exist.ret
    else testfsWriteDirent dir name len inodeNr (toInt32 pOffset)
  | none => do
    let inode ← inodeOf dir
    guard (pOffset = inode.data.iSize.toInt)
    testfsWriteDirent dir name len inodeNr (toInt32 pOffset)

/-- The entry keeps a directory from being removed. -/
def isChild (d : Dirent) : Option Bool :=
  if d.live then (toCString d.dName).map (fun n => n ≠ dot ∧ n ≠ dotdot) else some false

def testfsRemoveDirentAllowedWith (inodeNr : ℕ) : m ℤ := do
  testfsGetInode inodeNr
  let dir ← inodeOf inodeNr
  if dir.data.iType ≠ InodeType.dir.code then do
    put inodeNr
    return 0
  else do
    let (d,_) ← scanDir inodeNr isChild
    put inodeNr
    match d with
    | none => return 0
    | some _ => return Errno.notempty.ret

abbrev testfsRemoveDirentAllowed : ℕ → FsM ℤ := testfsRemoveDirentAllowedWith testfsPutInode

/-- The inode number of the entry that was removed, or an error. -/
def testfsRemoveDirentWith (dir : ℕ) (name : CString) : m ℤ :=
  if name = dot ∨ name = dotdot then return Errno.inval.ret
  else do
    let (d,pOffset) ← scanDir dir (isEntry name)
    match d with
    | none => return Errno.noent.ret
    | some d => do
      let ret ← testfsRemoveDirentAllowedWith put d.dInodeNr.toNat
      if ret < 0 then return ret
      else do
        -- every byte of the name was read
        (guard (d.dName.length = d.dNameLen.toNat) : FsM Unit)
        let ret ← testfsWriteData dir (direntBytes d.dNameLen invalidInodeNr d.dName) pOffset
        if 0 ≤ ret then return d.dInodeNr.toInt else return ret

abbrev testfsRemoveDirent : ℕ → CString → FsM ℤ := testfsRemoveDirentWith testfsPutInode

def testfsCreateEmptyDirWith (pInodeNr cdir : ℕ) : m ℤ := do
  assertDir cdir
  let ret ← testfsAddDirent cdir dot cdir
  if ret < 0 then return ret
  else do
    let ret ← testfsAddDirent cdir dotdot pInodeNr
    if ret < 0 then do
      let _ ← testfsRemoveDirentWith put cdir dot
      return ret
    else return 0

abbrev testfsCreateEmptyDir : ℕ → ℕ → FsM ℤ := testfsCreateEmptyDirWith testfsPutInode

/-- The contents of a new directory; nothing for a file. -/
def createContentsWith (type : InodeType) (pInodeNr inodeNr : ℕ) : m ℤ :=
  if type = InodeType.dir then testfsCreateEmptyDirWith put pInodeNr inodeNr else return 0

abbrev createContents : InodeType → ℕ → ℕ → FsM ℤ := createContentsWith testfsPutInode

/-- `testfs_create_file_or_dir` with a directory. -/
def testfsCreateFileOrDirWith (dir : ℕ) (type : InodeType) (name : CString) : m ℤ := do
  let inodeNr ← testfsDirNameToInodeNr dir name
  if 0 ≤ inodeNr then return Errno.exist.ret
  else do
    match ← testfsCreateInode type with
    | none => return Errno.nospc.ret
    | some inodeNr => do
      let ret ← createContentsWith put type dir inodeNr
      if ret < 0 then do
        testfsRemoveInodeWith put inodeNr
        return ret
      else do
        let ret ← testfsAddDirent dir name inodeNr
        if ret < 0 then do
          testfsRemoveInodeWith put inodeNr
          return ret
        else do
          testfsSyncInode dir
          testfsSyncInode inodeNr
          put inodeNr
          return 0

abbrev testfsCreateFileOrDir : ℕ → InodeType → CString → FsM ℤ :=
  testfsCreateFileOrDirWith testfsPutInode

/-- `testfs_make_root_dir`: `testfs_create_file_or_dir` without a directory. -/
def testfsMakeRootDir : FsM ℤ := do
  match ← testfsCreateInode InodeType.dir with
  | none => return Errno.nospc.ret
  | some inodeNr => do
    let ret ← createContents InodeType.dir inodeNr inodeNr
    if ret < 0 then do
      testfsRemoveInode inodeNr
      return ret
    else do
      testfsSyncInode inodeNr
      testfsPutInode inodeNr
      return 0

/-! ## Conversion of numbers -/

def isSpace (b : Byte) : Bool := b = 32 ∨ 9 ≤ b.toNat ∧ b.toNat ≤ 13

def isDigit (b : Byte) : Bool := 48 ≤ b.toNat ∧ b.toNat ≤ 57

def digitsValue (l : List Byte) : ℕ := l.foldl (fun v b => 10*v + (b.toNat - 48)) 0

/-- A number with its sign that is the whole of a string, as `strtoll` and `strtoull` read it.
Without any digits they read 0 and stop at the start of the string. -/
def strto (str : CString) : Option (Bool × ℕ) :=
  let l := str.1.dropWhile isSpace
  let negative := l.head? = some 45
  let digits := if l.head? = some 43 ∨ l.head? = some 45 then l.tail else l
  if digits ≠ [] ∧ digits.all isDigit then some (negative,digitsValue digits)
  else if str.1 = [] then some (false,0)
  else none

def strToOffset (str : CString) : Option ℤ :=
  (strto str).map fun (negative,v) =>
    if negative then max (-2^63) (-v) else min (2^63 - 1) v

def strToSize (str : CString) : Option ℕ :=
  (strto str).map fun (negative,v) =>
    if 2^64 ≤ v then 2^64 - 1 else if negative then (2^64 - v) % 2^64 else v

/-! ## Commands -/

/-- What a command prints. -/
inductive Output
  | nothing
  | names (l : List (CString × Bool))
  | path (l : List CString)
  | stat (name : CString) (iNr : ℕ) (iType : BitVec 32) (iSize : BitVec 64) (blockCount : BitVec 32)
  | data (l : List Byte)
  | counts (inodes blocks : BitVec 32)
  deriving DecidableEq

abbrev Reply := ℤ × Output

def fails (e : Errno) : Reply := (e.ret,.nothing)

/-- The names below `in` from an offset on, with a mark at directories. -/
def testfsLsWith (recursive : Bool) : ℕ → ℕ → ℤ → m (List (CString × Bool))
  | 0, _, _ => (failure : FsM _)
  | n+1, i, offset => do
    match ← testfsNextDirent i offset with
    | none => return []
    | some (d,next) =>
      if d.live = false then testfsLsWith recursive n i next
      else do
        let cin := d.dInodeNr.toNat
        testfsGetInode cin
        let inode ← inodeOf cin
        let name ← (StateT.lift (toCString d.dName) : FsM CString)
        let isDir := decide (inode.data.iType = InodeType.dir.code)
        if recursive ∧ isDir ∧ name ≠ dot ∧ name ≠ dotdot then do
          let below ← testfsLsWith recursive n cin 0
          put cin
          let rest ← testfsLsWith recursive n i next
          return (name,isDir)::(below ++ rest)
        else do
          put cin
          let rest ← testfsLsWith recursive n i next
          return (name,isDir)::rest

abbrev testfsLs : Bool → ℕ → ℕ → ℤ → FsM (List (CString × Bool)) := testfsLsWith testfsPutInode

/-- More rounds than all directories of an image have bytes. -/
def lsFuel : ℕ := 2^40

def cmdLsInternalWith (recursive : Bool) : List CString → m Reply
  | [cdir] => do
    let s ← (get : FsM Testfs)
    let inodeNr ← testfsDirNameToInodeNr s.curDir cdir
    if inodeNr < 0 then return (inodeNr,.nothing)
    else do
      testfsGetInode inodeNr.toNat
      let inode ← inodeOf inodeNr.toNat
      if inode.data.iType = InodeType.dir.code then do
        let names ← testfsLsWith put recursive lsFuel inodeNr.toNat 0
        put inodeNr.toNat
        return (0,.names names)
      else return fails .notdir
  | _ => return fails .inval

abbrev cmdLsInternal : Bool → List CString → FsM Reply := cmdLsInternalWith testfsPutInode

/-- The names on the way from the root; the root is above at most all inodes. -/
def testfsPwdWith : ℕ → ℕ → m (List CString)
  | 0, _ => (failure : FsM _)
  | n+1, i => do
    let pInodeNr ← testfsDirNameToInodeNr i dotdot
    (guard (0 ≤ pInodeNr) : FsM Unit)
    if pInodeNr = i then return []
    else do
      testfsGetInode pInodeNr.toNat
      let d ← testfsFindDirent pInodeNr.toNat i
      let d ← (StateT.lift d : FsM Dirent)
      let above ← testfsPwdWith n pInodeNr.toNat
      put pInodeNr.toNat
      let name ← (StateT.lift (toCString d.dName) : FsM CString)
      return above ++ [name]

abbrev testfsPwd : ℕ → ℕ → FsM (List CString) := testfsPwdWith testfsPutInode

def cmdPwdWith : List CString → m Reply
  | [] => do
    let s ← (get : FsM Testfs)
    let path ← testfsPwdWith put (nrInodeBlocks*inodesPerBlock + 1) s.curDir
    return (0,.path path)
  | _ => return fails .inval

abbrev cmdPwd : List CString → FsM Reply := cmdPwdWith testfsPutInode

def cmdCdWith : List CString → m Reply
  | [dir] => do
    let s ← (get : FsM Testfs)
    let inodeNr ← testfsDirNameToInodeNr s.curDir dir
    if inodeNr < 0 then return (inodeNr,.nothing)
    else do
      testfsGetInode inodeNr.toNat
      let inode ← inodeOf inodeNr.toNat
      if inode.data.iType ≠ InodeType.dir.code then do
        put inodeNr.toNat
        return fails .notdir
      else do
        put s.curDir
        (modify fun s => { s with curDir := inodeNr.toNat } : FsM Unit)
        return (0,.nothing)
  | _ => return fails .inval

abbrev cmdCd : List CString → FsM Reply := cmdCdWith testfsPutInode

/-- `cmd_create` and `cmd_mkdir`. -/
def cmdCreateTypeWith (type : InodeType) : List CString → m Reply
  | [name] => do
    let s ← (get : FsM Testfs)
    let ret ← testfsCreateFileOrDirWith put s.curDir type name
    return (ret,.nothing)
  | _ => return fails .inval

abbrev cmdCreateType : InodeType → List CString → FsM Reply := cmdCreateTypeWith testfsPutInode

def cmdCreate : List CString → FsM Reply := cmdCreateType .file

def cmdMkdir : List CString → FsM Reply := cmdCreateType .dir

def cmdRmWith : List CString → m Reply
  | [name] => do
    let s ← (get : FsM Testfs)
    let inodeNr ← testfsRemoveDirentWith put s.curDir name
    if inodeNr < 0 then return (inodeNr,.nothing)
    else do
      testfsGetInode inodeNr.toNat
      testfsRemoveInodeWith put inodeNr.toNat
      testfsSyncInode s.curDir
      return (0,.nothing)
  | _ => return fails .inval

abbrev cmdRm : List CString → FsM Reply := cmdRmWith testfsPutInode

def cmdStatWith : List CString → m Reply
  | [name] => do
    let s ← (get : FsM Testfs)
    let inodeNr ← testfsDirNameToInodeNr s.curDir name
    if inodeNr < 0 then return (inodeNr,.nothing)
    else do
      testfsGetInode inodeNr.toNat
      let inode ← inodeOf inodeNr.toNat
      put inodeNr.toNat
      return (0,.stat name inodeNr.toNat inode.data.iType inode.data.iSize inode.data.blockCount)
  | _ => return fails .inval

abbrev cmdStat : List CString → FsM Reply := cmdStatWith testfsPutInode

/-- The inode of a file, held by the caller, or an error. -/
def testfsGetFileInodeWith (dir : ℕ) (name : CString) : m (Except ℤ ℕ) := do
  let inodeNr ← testfsDirNameToInodeNr dir name
  if inodeNr < 0 then return .error inodeNr
  else do
    testfsGetInode inodeNr.toNat
    let inode ← inodeOf inodeNr.toNat
    if inode.data.iType = InodeType.dir.code then do
      put inodeNr.toNat
      return .error Errno.isdir.ret
    else return .ok inodeNr.toNat

abbrev testfsGetFileInode : ℕ → CString → FsM (Except ℤ ℕ) := testfsGetFileInodeWith testfsPutInode

/-- `cmd_read` from the point where it holds the inode. -/
def readFileWith (i : ℕ) (offset : ℤ) (size : ℕ) : m Reply := do
  let inode ← inodeOf i
  if inode.data.iSize.toInt < toInt64 (offset + toInt64 size) then do
    put i
    return fails .inval
  else if 2^63 ≤ toSize (size + 1) then do
    put i
    return fails .nomem
  else do
    let (ret,buf) ← testfsReadData i offset size
    put i
    if 0 ≤ ret then return (ret,.data buf) else return (ret,.nothing)

abbrev readFile : ℕ → ℤ → ℕ → FsM Reply := readFileWith testfsPutInode

def cmdReadWith : List CString → m Reply
  | [filename,offset,size] =>
    match strToOffset offset with
    | none => return fails .inval
    | some offset =>
      if offset < 0 then return fails .inval
      else match strToSize size with
        | none => return fails .inval
        | some size => do
          let s ← (get : FsM Testfs)
          match ← testfsGetFileInodeWith put s.curDir filename with
          | .error ret => return (ret,.nothing)
          | .ok i => readFileWith put i offset size
  | _ => return fails .inval

abbrev cmdRead : List CString → FsM Reply := cmdReadWith testfsPutInode

def cmdWriteWith : List CString → m Reply
  | [filename,offset,buf] =>
    match strToOffset offset with
    | none => return fails .inval
    | some offset =>
      if offset < 0 then return fails .inval
      else do
        let s ← (get : FsM Testfs)
        match ← testfsGetFileInodeWith put s.curDir filename with
        | .error ret => return (ret,.nothing)
        | .ok i => do
          let ret ← testfsWriteData i buf.1 offset
          testfsSyncInode i
          put i
          return (ret,.nothing)
  | _ => return fails .inval

abbrev cmdWrite : List CString → FsM Reply := cmdWriteWith testfsPutInode

def cmdFsstat : List CString → FsM Reply
  | [] => do
    let s ← get
    return (0,.counts s.sb.usedInodeCount s.sb.usedBlockCount)
  | _ => return fails .inval

/-- The commands of `cmdtable` that use the file system. -/
inductive Command
  | cd | pwd | ls | lsr | create | stat | rm | mkdir | read | write | fsstat
  deriving DecidableEq

def funcWith : Command → List CString → m Reply
  | .cd => cmdCdWith put
  | .pwd => cmdPwdWith put
  | .ls => cmdLsInternalWith put false
  | .lsr => cmdLsInternalWith put true
  | .create => cmdCreateTypeWith put .file
  | .stat => cmdStatWith put
  | .rm => cmdRmWith put
  | .mkdir => cmdCreateTypeWith put .dir
  | .read => cmdReadWith put
  | .write => cmdWriteWith put
  | .fsstat => fun args => cmdFsstat args

abbrev Command.func : Command → List CString → FsM Reply := funcWith testfsPutInode

/-- `handle_command`: a command with its arguments `cmd[1]`, `cmd[2]`, .. -/
def handleCommand (s : Testfs) (c : Command × List CString) : Option Testfs :=
  ((c.1.func c.2).run s).map Prod.snd

/-! ## Making and mounting an image -/

def superBlockOf (maxFsBlocks : ℕ) : SuperBlock where
  inodeFreemapStart := 1
  blockFreemapStart := 2
  inodeBlocksStart := 18
  dataBlocksStart := 146
  usedInodeCount := 0
  usedBlockCount := 0
  maxFsBlocks := BitVec.ofNat 64 maxFsBlocks

/-- The image before the root directory is made: `testfs_make_super_block`, the zeroed free maps
and inode blocks, and `testfs_close_super_block`. -/
def makeDevice (maxFsBlocks : ℕ) : Device :=
  let block := copyIn (fun _ => 0) 0 (superBlockOf maxFsBlocks).bytes
  let dev : Device := { size := 0, block := fun _ _ => 0 }
  let dev := dev.write 0 block
  let dev := dev.zeroBlocks 1 inodeFreemapSize
  let dev := dev.zeroBlocks 2 blockFreemapSize
  let dev := dev.zeroBlocks 18 nrInodeBlocks
  dev.write 0 block

/-- The contents of consecutive blocks as one region. -/
def regionOf (dev : Device) (start : ℕ) : Region :=
  fun k => dev.block (start + k/blockSize) (k % blockSize)

def testfsInitSuperBlock (dev : Device) : Option Testfs :=
  let sb := SuperBlock.load (dev.block 0)
  if sb.inodeFreemapStart.toNat + inodeFreemapSize ≤ dev.size ∧
      sb.blockFreemapStart.toNat + blockFreemapSize ≤ dev.size then
    some
      { sb := sb
        dev := dev
        inodeFreemap :=
          { nbits := blockSize*inodeFreemapSize*8, v := regionOf dev sb.inodeFreemapStart.toNat }
        blockFreemap :=
          { nbits := blockSize*blockFreemapSize*8, v := regionOf dev sb.blockFreemapStart.toNat }
        inodes := fun _ => none
        curDir := 0 }
  else none

/-- Write `n` consecutive blocks from a region. -/
def writeRegion (m : Region) (start : ℕ) : ℕ → FsM Unit
  | 0 => return ()
  | n+1 => do
    writeRegion m start n
    writeBlocks (fun k => m (n*blockSize + k)) (start + n)

def testfsCloseSuperBlock : FsM Unit := do
  testfsWriteSuperBlock
  let s ← get
  guard (∀ i < nrInodeBlocks*inodesPerBlock, s.inodes i = none)
  writeRegion s.inodeFreemap.v s.sb.inodeFreemapStart.toNat inodeFreemapSize
  writeRegion s.blockFreemap.v s.sb.blockFreemapStart.toNat blockFreemapSize

/-- The image that `mktestfs -s fsSizeMb` makes. -/
def mktestfs (fsSizeMb : ℕ) : Option Device := do
  if fsSizeMb < 1 ∨ 8192 < fsSizeMb then none
  else do
    let s ← testfsInitSuperBlock (makeDevice (fsSizeMb*2^20/blockSize))
    let (_,s) ← testfsMakeRootDir.run s
    let (_,s) ← testfsCloseSuperBlock.run s
    return s.dev

/-- `testfs` up to its first prompt. -/
def mount (dev : Device) : Option Testfs := do
  let s ← testfsInitSuperBlock dev
  let (_,s) ← (testfsGetInode 0).run s
  return { s with curDir := 0 }

end DirModel
end OsLabs

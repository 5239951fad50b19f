import Mathlib.Data.BitVec
import Mathlib.Tactic
import OsLabs.Bytes
import OsLabs.Wlp
import OsLabs.FsModel
import OsLabs.DirModel
import OsLabs.FsVolume
import OsLabs.FsAccounts
import OsLabs.Dirents
import OsLabs.DirMap
import OsLabs.DirOps
import OsLabs.FsTree
import OsLabs.FsCommands
import OsLabs.FsReading
import OsLabs.FsSessions
import OsLabs.FsGrowth
import OsLabs.BlockNarrowing
import OsLabs.FsFiles
import OsLabs.FileHistory
import OsLabs.FileRemoval

/-!
# The copy of a read

`cmd_read` allocates a buffer and `testfs_read_data` copies a part of one block into it. The
functions are cut here before this `memcpy`, so that its arguments can be compared with the size
of the file, the block and the buffer.
-/

namespace OsLabs
namespace ReadBounds

open Bytes FsModel DirModel FsVolume FsAccounts Dirents DirMap DirOps
open FsTree FsCommands FsReading FsSessions FsGrowth BlockNarrowing FsFiles FileHistory FileRemoval

/-! ## The functions up to the copy -/

/-- The arguments of the `memcpy`: where it reads in the block, and how many bytes. -/
structure Memcpy where
  block : Region
  blockIx : ℤ
  size : ℕ

/-- `testfs_read_data` up to the `memcpy`, or the value that it returns before. -/
def readDataUpToCopy (i : ℕ) (start : ℤ) (size : ℕ) : FsM (Except ℤ Memcpy) := do
  let inode ← inodeOf i
  let blockNr := start.tdiv blockSize
  let blockIx := start.tmod blockSize
  let size := if inode.data.iSize.toInt < toInt64 (start + toInt64 size) then
      toSize (inode.data.iSize.toInt - start)
    else size
  if blockSize < toSize (blockIx + size) then return .error Errno.nosys.ret
  else do
    let (ret,block) ← testfsReadBlock i (toInt32 blockNr)
    if ret < 0 then return .error ret else return .ok { block, blockIx, size }

def copyData (m : Memcpy) : FsM (ℤ × List Byte) := do
  guard (0 ≤ m.blockIx ∧ m.blockIx.toNat + m.size ≤ blockSize)
  return (m.size,copyOut m.block m.blockIx.toNat m.size)

def finishData : Except ℤ Memcpy → FsM (ℤ × List Byte)
  | .error ret => return (ret,[])
  | .ok m => copyData m

theorem testfsReadData_eq (i : ℕ) (start : ℤ) (size : ℕ) :
    testfsReadData i start size = readDataUpToCopy i start size >>= finishData := by
  rw [testfsReadData,readDataUpToCopy,bind_assoc]
  refine bind_congr fun inode => ?_
  simp only
  generalize (if inode.data.iSize.toInt < toInt64 (start + toInt64 size) then
    toSize (inode.data.iSize.toInt - start) else size) = n
  by_cases hbig : blockSize < toSize (start.tmod blockSize + n)
  · rw [if_pos hbig,if_pos hbig]
    rfl
  · rw [if_neg hbig,if_neg hbig,bind_assoc]
    refine bind_congr fun p => ?_
    by_cases hneg : p.1 < 0
    · rw [if_pos hneg,if_pos hneg]
      rfl
    · rw [if_neg hneg,if_neg hneg]
      rfl

/-- `cmd_read` at the `memcpy`: the inode that it holds, and the number of bytes of `buf`. -/
structure Copying extends Memcpy where
  inode : ℕ
  room : ℕ

/-- `cmd_read` up to the `memcpy`, from the point where it holds the inode, or its reply. -/
def readFileUpToCopy (i : ℕ) (offset : ℤ) (size : ℕ) : FsM (Except Reply Copying) := do
  let inode ← inodeOf i
  if inode.data.iSize.toInt < toInt64 (offset + toInt64 size) then do
    testfsPutInode i
    return .error (fails .inval)
  else if 2^63 ≤ toSize (size + 1) then do
    testfsPutInode i
    return .error (fails .nomem)
  else do
    match ← readDataUpToCopy i offset size with
    | .error ret => do
      testfsPutInode i
      if 0 ≤ ret then return .error (ret,.data []) else return .error (ret,.nothing)
    | .ok m => return .ok { m with inode := i, room := toSize (size + 1) }

def cmdReadUpToCopy : List CString → FsM (Except Reply Copying)
  | [filename,offset,size] =>
    match strToOffset offset with
    | none => return .error (fails .inval)
    | some offset =>
      if offset < 0 then return .error (fails .inval)
      else match strToSize size with
        | none => return .error (fails .inval)
        | some size => do
          let s ← get
          match ← testfsGetFileInode s.curDir filename with
          | .error ret => return .error (ret,.nothing)
          | .ok i => readFileUpToCopy i offset size
  | _ => return .error (fails .inval)

def finishRead : Except Reply Copying → FsM Reply
  | .error reply => return reply
  | .ok m => do
    let (ret,buf) ← copyData m.toMemcpy
    testfsPutInode m.inode
    if 0 ≤ ret then return (ret,.data buf) else return (ret,.nothing)

theorem readFile_eq (i : ℕ) (offset : ℤ) (size : ℕ) :
    readFile i offset size = readFileUpToCopy i offset size >>= finishRead := by
  simp only [readFile,readFileWith,monadLift_self]
  rw [readFileUpToCopy,bind_assoc]
  refine bind_congr fun inode => ?_
  by_cases hbig : inode.data.iSize.toInt < toInt64 (offset + toInt64 size)
  · rw [if_pos hbig,if_pos hbig,bind_assoc]
    rfl
  rw [if_neg hbig,if_neg hbig]
  by_cases hmem : 2^63 ≤ toSize (size + 1)
  · rw [if_pos hmem,if_pos hmem,bind_assoc]
    rfl
  rw [if_neg hmem,if_neg hmem,testfsReadData_eq,bind_assoc,bind_assoc]
  refine bind_congr fun r => ?_
  cases r with
  | error ret =>
    by_cases hret : 0 ≤ ret
    · simp only [finishData,pure_bind,if_pos hret,bind_assoc]
      rfl
    · simp only [finishData,pure_bind,if_neg hret,bind_assoc]
      rfl
  | ok m => rfl

theorem cmdRead_eq (args : List CString) : cmdRead args = cmdReadUpToCopy args >>= finishRead := by
  match args with
  | [filename,offset,size] =>
    simp only [cmdRead,cmdReadWith,cmdReadUpToCopy,monadLift_self]
    cases strToOffset offset with
    | none => rfl
    | some offset =>
      simp only
      split
      · rfl
      · cases strToSize size with
        | none => rfl
        | some size =>
          simp only
          rw [bind_assoc]
          refine bind_congr fun s => ?_
          rw [bind_assoc]
          refine bind_congr fun r => ?_
          cases r with
          | error e => rfl
          | ok i => exact readFile_eq i _ _
  | [] => rfl
  | [_] => rfl
  | [_,_] => rfl
  | _::_::_::_::_ => rfl

/-! ## Numbers -/

/-- The copy stays inside of the file, the block and the buffer. -/
structure Inside (fileSize offset : ℤ) (size : ℕ) (m : Copying) : Prop where
  file : offset + size ≤ fileSize
  block : offset % blockSize + size ≤ blockSize
  buffer : m.size ≤ m.room

/-- The numbers that pass the two checks and should not: the largest size, which is the number -1,
and the block numbers that are negative after their conversion. -/
def Overruns (fileSize offset : ℤ) (size : ℕ) : Prop :=
  (size = 2^64 - 1 ∧ 0 < offset % blockSize ∧ offset ≤ fileSize + 1 ∧ blockNr offset < nrLogical) ∨
    (blockNr offset < 0 ∧ offset % blockSize + size ≤ blockSize ∧
      (offset + size ≤ fileSize ∨ offset + size = 2^63))

instance (fileSize offset : ℤ) (size : ℕ) : Decidable (Overruns fileSize offset size) :=
  inferInstanceAs (Decidable (_ ∨ _))

section Numbers

variable {fileSize : ℤ} {o size : ℕ}

theorem toInt64_sum (size : ℕ) (ho : o < 2^63) :
    (size = 2^64 - 1 → toInt64 (o + toInt64 size) = o - 1) ∧
    (o + size < 2^63 → toInt64 (o + toInt64 size) = o + size) ∧
    (size < 2^63 → 2^63 ≤ o + size → toInt64 (o + toInt64 size) = o + size - 2^64) := by
  refine ⟨?_,fun h => ?_,fun h h' => ?_⟩
  · rintro rfl
    have h1 : toInt64 ((2^64 - 1 : ℕ) : ℤ) = -1 := by decide
    rw [h1,toInt64,← sub_eq_add_neg]
    exact Int.bmod_eq_of_le (by omega) (by omega)
  · rw [toInt64_natCast (k := size) (by omega),← Nat.cast_add,toInt64_natCast h]
  · have hb : ((o : ℤ) + size - (2^64 : ℕ)).bmod (2^64) = (o : ℤ) + size - (2^64 : ℕ) :=
      Int.bmod_eq_of_le (by omega) (by omega)
    rw [Int.sub_bmod_right] at hb
    rw [toInt64_natCast h,toInt64,hb]
    rfl

/-- At the end of the offsets the block number is -1. -/
theorem blockNr_last (ho : o < 2^63) (hsum : o + size = 2^63)
    (hfit : o % blockSize + size ≤ blockSize) : blockNr o = -1 := by
  simp only [blockSize] at hfit
  have hdiv : o/blockSize = 2^50 - 1 := by
    simp only [blockSize]
    omega
  rw [blockNr_natCast,hdiv]
  decide

theorem not_overruns_of_lt (ho : o < 2^63) (hlo : -2^63 ≤ fileSize) (hhi : fileSize < 2^63)
    (h : fileSize < toInt64 (o + toInt64 size)) : ¬Overruns fileSize o size := by
  obtain ⟨h1,h2,h3⟩ := toInt64_sum size ho
  rintro (⟨hs,-,hle,-⟩ | ⟨-,hfit,hle⟩)
  · rw [h1 hs] at h
    omega
  · simp only [blockSize] at hfit
    by_cases hsum : o + size < 2^63
    · rw [h2 hsum] at h
      omega
    · rw [h3 (by omega) (by omega)] at h
      omega

theorem not_overruns_of_large (h : 2^63 ≤ toSize (size + 1)) : ¬Overruns fileSize o size := by
  rw [toSize] at h
  rintro (⟨rfl,-⟩ | ⟨-,hfit,-⟩)
  · omega
  · simp only [blockSize] at hfit
    omega

theorem not_overruns_of_block (h : blockSize < toSize ((o % blockSize : ℕ) + (size : ℤ))) :
    ¬Overruns fileSize o size := by
  rw [toSize] at h
  simp only [blockSize] at h
  rintro (⟨rfl,hix,-⟩ | ⟨-,hfit,-⟩)
  · simp only [blockSize] at hix
    omega
  · simp only [blockSize] at hfit
    omega

/-- What the checks leave. -/
theorem checks_passed (ho : o < 2^63) (hsize : size < 2^64)
    (h1 : ¬fileSize < toInt64 (o + toInt64 size)) (h2 : ¬2^63 ≤ toSize (size + 1))
    (h3 : ¬blockSize < toSize ((o % blockSize : ℕ) + (size : ℤ))) :
    (size = 2^64 - 1 ∧ 0 < (o : ℤ) % blockSize ∧ (o : ℤ) ≤ fileSize + 1) ∨
    (size < toSize (size + 1) ∧ (o : ℤ) % blockSize + size ≤ blockSize ∧
      ((o : ℤ) + size ≤ fileSize ∨ (o : ℤ) + size = 2^63)) := by
  obtain ⟨hs1,hs2,hs3⟩ := toInt64_sum size ho
  rw [toSize] at h2 h3
  simp only [blockSize] at h3 ⊢
  by_cases hmax : size = 2^64 - 1
  · rw [hs1 hmax] at h1
    exact .inl ⟨hmax,by omega,by omega⟩
  · refine .inr ⟨?_,by omega,?_⟩
    · rw [toSize]
      omega
    · by_cases hsum : o + size < 2^63
      · rw [hs2 hsum] at h1
        exact .inl (by omega)
      · exact .inr (by omega)

end Numbers

/-! ## Reading a file -/

/-- A run that reaches the copy stays inside of its bounds. -/
def Safe (fileSize offset : ℤ) (size : ℕ) (r : Except Reply Copying) : Prop :=
  ∀ m, r = .ok m → Inside fileSize offset size m

theorem safe_total {fileSize offset : ℤ} {size : ℕ} {m : FsM (Except Reply Copying)} {s : Testfs}
    (h : Total m s fun r _ => ∃ reply, r = .error reply) :
    Total m s fun r _ => Safe fileSize offset size r := by
  refine h.mono ?_
  rintro _ _ ⟨reply,rfl⟩ m hm
  cases hm

section Reading

variable {s : Testfs} {c : Memory} {v : Volume} {i o size : ℕ}

theorem readDataUpToCopy_refused (h : Valid s c v) (hi : Held c i)
    (h1 : ¬(v.inode i).iSize.toInt < toInt64 (o + toInt64 size))
    (h3 : blockSize < toSize ((o % blockSize : ℕ) + (size : ℤ))) :
    Total (readDataUpToCopy i o size) s (fun r t => t = s ∧ ∃ ret, r = .error ret) := by
  refine Total.bind (((inodeOf_returns h.stands hi).total (inodeOf_spec h.stands i)).mono ?_)
  rintro inode t ⟨rfl,-,hv⟩
  simp only [hv]
  rw [if_neg h1,(natCast_tdiv_blockSize o).2,if_pos h3]
  exact Total.pure ⟨rfl,_,rfl⟩

/-- The assertion of `testfs_read_block` fails for a negative block number. -/
theorem readDataUpToCopy_fails (h : Valid s c v)
    (h1 : ¬(v.inode i).iSize.toInt < toInt64 (o + toInt64 size))
    (h3 : ¬blockSize < toSize ((o % blockSize : ℕ) + (size : ℤ))) (hneg : blockNr o < 0) :
    ¬Returns (readDataUpToCopy i o size) s := by
  refine Wlp.not_returns (Wlp.bind_iff.mpr ((inodeOf_spec h.stands i).mono ?_))
  rintro inode t ⟨rfl,-,hv⟩
  simp only [hv]
  rw [if_neg h1,(natCast_tdiv_blockSize o).2,if_neg h3,← blockNr,Wlp.bind_iff]
  refine (testfsReadBlock_spec h.stands h.accounts i _).mono ?_
  rintro _ _ ⟨-,h0,-⟩
  exact absurd hneg (not_lt.mpr h0)

/-- Beyond the last block the read fails, and before it the copy is reached. -/
theorem readDataUpToCopy_total (h : Valid s c v) (hi : Held c i)
    (h1 : ¬(v.inode i).iSize.toInt < toInt64 (o + toInt64 size))
    (h3 : ¬blockSize < toSize ((o % blockSize : ℕ) + (size : ℤ))) (h0 : 0 ≤ blockNr o) :
    Total (readDataUpToCopy i o size) s (fun r t => t = s ∧
      ((nrLogical ≤ blockNr o ∧ ∃ ret, r = .error ret) ∨
        (blockNr o < nrLogical ∧
          ∃ block, r = .ok { block, blockIx := (o % blockSize : ℕ), size }))) := by
  have hread := (testfsReadBlock_returns h hi h0).total
    (testfsReadBlock_spec h.stands h.accounts i (blockNr o))
  refine Total.bind (((inodeOf_returns h.stands hi).total (inodeOf_spec h.stands i)).mono ?_)
  rintro inode t ⟨rfl,-,hv⟩
  simp only [hv]
  rw [if_neg h1,(natCast_tdiv_blockSize o).2,if_neg h3,← blockNr]
  refine Total.bind (hread.mono ?_)
  rintro ⟨ret,block⟩ u ⟨rfl,-,⟨hbig,hneg⟩ | ⟨hlt,hret,-⟩⟩
  · have hend : (nrLogical : ℤ) ≤ blockNr o := by omega
    simp only at hneg ⊢
    rw [if_pos hneg]
    exact Total.pure ⟨rfl,.inl ⟨hend,ret,rfl⟩⟩
  · have hin : blockNr o < nrLogical := by omega
    simp only at hret ⊢
    rw [if_neg (by omega)]
    exact Total.pure ⟨rfl,.inr ⟨hin,block,rfl⟩⟩

/-- When the two checks of `cmd_read` pass, it goes on as `testfs_read_data` does. -/
theorem readFileUpToCopy_total (h : Valid s c v) (hi : Held c i) (hput : Returns (testfsPutInode i) s)
    (h1 : ¬(v.inode i).iSize.toInt < toInt64 (o + toInt64 size)) (h2 : ¬2^63 ≤ toSize (size + 1))
    {R : Except ℤ Memcpy → Prop}
    (hread : Total (readDataUpToCopy i o size) s fun r t => t = s ∧ R r) :
    Total (readFileUpToCopy i o size) s (fun r _ =>
      (∃ ret reply, R (.error ret) ∧ r = .error reply) ∨
      ∃ m, R (.ok m) ∧ r = .ok { m with inode := i, room := toSize (size + 1) }) := by
  refine Total.bind (((inodeOf_returns h.stands hi).total (inodeOf_spec h.stands i)).mono ?_)
  rintro inode t ⟨rfl,-,hv⟩
  rw [hv,if_neg h1,if_neg h2]
  refine Total.bind (hread.mono ?_)
  rintro (ret | m) u ⟨rfl,hr⟩
  · refine Total.bind ((hput.total fun _ _ _ => trivial).mono fun _ w _ => ?_)
    split
    · exact Total.pure (.inl ⟨ret,_,hr,rfl⟩)
    · exact Total.pure (.inl ⟨ret,_,hr,rfl⟩)
  · exact Total.pure (.inr ⟨m,hr,rfl⟩)

theorem readFileUpToCopy_checked (h : Valid s c v) (hi : Held c i)
    (hput : Returns (testfsPutInode i) s)
    (hc : (v.inode i).iSize.toInt < toInt64 (o + toInt64 size) ∨ 2^63 ≤ toSize (size + 1)) :
    Total (readFileUpToCopy i o size) s (fun r _ => ∃ reply, r = .error reply) := by
  refine Total.bind (((inodeOf_returns h.stands hi).total (inodeOf_spec h.stands i)).mono ?_)
  rintro inode t ⟨rfl,-,hv⟩
  have hdone : ∀ reply, Total (do testfsPutInode i; return .error reply) t
      fun (r : Except Reply Copying) _ => ∃ reply, r = .error reply := fun reply =>
    Total.bind ((hput.total fun _ _ _ => trivial).mono fun _ _ _ => Total.pure ⟨reply,rfl⟩)
  rw [hv]
  by_cases h1 : (v.inode i).iSize.toInt < toInt64 (o + toInt64 size)
  · rw [if_pos h1]
    exact hdone _
  · rw [if_neg h1,if_pos (hc.resolve_left h1)]
    exact hdone _

theorem readFileUpToCopy_copies (h : Valid s c v) (hi : Held c i)
    (hput : Returns (testfsPutInode i) s)
    (h1 : ¬(v.inode i).iSize.toInt < toInt64 (o + toInt64 size)) (h2 : ¬2^63 ≤ toSize (size + 1))
    (h3 : ¬blockSize < toSize ((o % blockSize : ℕ) + (size : ℤ))) (h0 : 0 ≤ blockNr o)
    (hlt : blockNr o < nrLogical) :
    Total (readFileUpToCopy i o size) s (fun r _ => ∃ block, r = .ok
      { block, blockIx := (o % blockSize : ℕ), size, inode := i, room := toSize (size + 1) }) := by
  refine (readFileUpToCopy_total h hi hput h1 h2 (readDataUpToCopy_total h hi h1 h3 h0)).mono ?_
  rintro _ _ (⟨_,_,⟨hbig,-⟩ | ⟨-,_,hr⟩,-⟩ | ⟨m,⟨hbig,-⟩ | ⟨-,block,hm⟩,rfl⟩)
  · exact absurd hbig (not_le.mpr hlt)
  · cases hr
  · exact absurd hbig (not_le.mpr hlt)
  · cases hm
    exact ⟨block,rfl⟩

theorem readFileUpToCopy_fails (h : Valid s c v)
    (h1 : ¬(v.inode i).iSize.toInt < toInt64 (o + toInt64 size)) (h2 : ¬2^63 ≤ toSize (size + 1))
    (h3 : ¬blockSize < toSize ((o % blockSize : ℕ) + (size : ℤ))) (hneg : blockNr o < 0) :
    ¬Returns (readFileUpToCopy i o size) s := by
  refine Wlp.not_returns (Wlp.bind_iff.mpr ((inodeOf_spec h.stands i).mono ?_))
  rintro inode t ⟨rfl,-,hv⟩
  rw [hv,if_neg h1,if_neg h2,Wlp.bind_iff]
  exact fun r u hr => absurd ⟨r,u,hr⟩ (readDataUpToCopy_fails h h1 h3 hneg)

/-- Every copy that is reached is inside of its bounds, and no assertion fails before, unless the
checks miss the numbers. -/
theorem readFileUpToCopy_safe_iff (h : Valid s c v) (hi : Held c i)
    (hput : Returns (testfsPutInode i) s) (ho : o < 2^63) (hsize : size < 2^64) :
    Total (readFileUpToCopy i o size) s (fun r _ => Safe (v.inode i).iSize.toInt o size r) ↔
      ¬Overruns (v.inode i).iSize.toInt o size := by
  have hlo := (v.inode i).iSize.le_toInt
  have hhi := (v.inode i).iSize.toInt_lt
  by_cases h1 : (v.inode i).iSize.toInt < toInt64 (o + toInt64 size)
  · exact iff_of_true (safe_total (readFileUpToCopy_checked h hi hput (.inl h1)))
      (not_overruns_of_lt ho (by omega) (by omega) h1)
  by_cases h2 : 2^63 ≤ toSize (size + 1)
  · exact iff_of_true (safe_total (readFileUpToCopy_checked h hi hput (.inr h2)))
      (not_overruns_of_large h2)
  by_cases h3 : blockSize < toSize ((o % blockSize : ℕ) + (size : ℤ))
  · refine iff_of_true (safe_total ?_) (not_overruns_of_block h3)
    refine (readFileUpToCopy_total h hi hput h1 h2 (readDataUpToCopy_refused h hi h1 h3)).mono ?_
    rintro r _ (⟨-,reply,-,hr⟩ | ⟨m,⟨_,hm⟩,-⟩)
    · exact ⟨reply,hr⟩
    · cases hm
  have hpass := checks_passed ho hsize h1 h2 h3
  by_cases hneg : blockNr o < 0
  · refine iff_of_false (fun ht => readFileUpToCopy_fails h h1 h2 h3 hneg ht.returns) ?_
    rw [not_not]
    rcases hpass with ⟨hs,hix,hle⟩ | ⟨-,hfit,hend⟩
    · exact .inl ⟨hs,hix,hle,by omega⟩
    · exact .inr ⟨hneg,hfit,hend⟩
  · have hread := readFileUpToCopy_total h hi hput h1 h2
      (readDataUpToCopy_total h hi h1 h3 (not_lt.mp hneg))
    by_cases hlog : nrLogical ≤ blockNr o
    · refine iff_of_true (safe_total (hread.mono ?_)) ?_
      · rintro r _ (⟨-,reply,-,hr⟩ | ⟨m,⟨-,_,hm⟩ | ⟨hlt,-⟩,-⟩)
        · exact ⟨reply,hr⟩
        · cases hm
        · omega
      · rintro (⟨-,-,-,hlt⟩ | ⟨hlt,-⟩)
        · omega
        · omega
    · have hcopy := readFileUpToCopy_copies h hi hput h1 h2 h3 (not_lt.mp hneg) (not_le.mp hlog)
      rcases hpass with ⟨hs,hix,hle⟩ | ⟨hroom,hfit,hend⟩
      · refine iff_of_false (fun ht => ?_) (not_not.mpr (.inl ⟨hs,hix,hle,by omega⟩))
        obtain ⟨r,t,-,⟨block,rfl⟩,hin⟩ := hcopy.and_wlp ht.wlp
        have hfile := (hin _ rfl).file
        omega
      · refine iff_of_true (hcopy.mono ?_) ?_
        · rintro _ _ ⟨block,rfl⟩ m hm
          cases hm
          refine ⟨hend.resolve_right fun hlast => ?_,hfit,hroom.le⟩
          have hone := blockNr_last ho (by exact_mod_cast hlast) (by exact_mod_cast hfit)
          omega
        · rintro (⟨rfl,-⟩ | ⟨hlt,-⟩)
          · simp only [blockSize] at hfit
            omega
          · exact hneg hlt

end Reading

/-! ## The command -/

section Commands

variable {s : Testfs} {c : Memory} {v : Volume} {E : ℕ → List Entry} {name os ss : CString}
  {i o size : ℕ} {Q : Except Reply Copying → Testfs → Prop}

theorem cmdReadUpToCopy_iff (h : Ready s c v E) (hf : NamesFile s name i)
    (ho : strToOffset os = some (o : ℤ)) (hsize : strToSize ss = some size) :
    ∃ t, Valid t (c.hold i) v ∧
      (cmdReadUpToCopy [name,os,ss]).run s = (readFileUpToCopy i o size).run t := by
  obtain ⟨_,t,hrun,rfl,ht⟩ := testfsGetFileInode_total h hf
  refine ⟨t,ht,?_⟩
  simp only [cmdReadUpToCopy]
  rw [ho]
  simp only
  rw [if_neg (not_lt.mpr (Int.natCast_nonneg o)),hsize]
  simp only
  rw [StateT.run_bind,StateT.run_get]
  simp only [Option.pure_def,Option.bind_eq_bind,Option.bind_some]
  rw [StateT.run_bind,hrun]
  rfl

/-- Reading a file stays inside of the file, the block and the buffer, and no assertion fails
before, exactly if the checks do not miss the offset and the size. -/
theorem cmdRead_inside_iff (hs : FsReachable s) (hf : NamesFile s name i) {offset : ℤ}
    (ho : strToOffset os = some offset) (h0 : 0 ≤ offset) (hsize : strToSize ss = some size) :
    Total (cmdReadUpToCopy [name,os,ss]) s
        (fun r _ => Safe (inodeView s i).iSize.toInt offset size r) ↔
      ¬Overruns (inodeView s i).iSize.toInt offset size := by
  lift offset to ℕ using h0
  obtain ⟨c,E,hready⟩ := ready_of_reachable hs
  obtain ⟨t,ht,hrun⟩ := cmdReadUpToCopy_iff hready hf ho hsize
  have hput := (putFile_total hready hf ht).returns
  have hlt := lt_of_strToOffset ho
  rw [Total,hrun]
  exact readFileUpToCopy_safe_iff ht (held_hold c i) hput (by exact_mod_cast hlt)
    (lt_of_strToSize hsize)

end Commands

/-! ## At both ends of the sizes -/

def oneText : CString := ⟨[49],by decide⟩

def minusOneText : CString := ⟨[45,49],by decide⟩

/-- The only byte of a file, in its sixth block, is copied. -/
theorem lastByte_read_inside : ∃ i s, FsReachable s ∧ (inodeView s i).iSize.toInt = 40961 ∧
    Total (cmdReadUpToCopy [fileName,nearText,oneText]) s fun r _ =>
      Safe (inodeView s i).iSize.toInt 40960 1 r ∧ ∃ m, r = .ok m ∧ m.size = 1 := by
  obtain ⟨i,maps,s,hlife,hf,-⟩ := written_once
  obtain ⟨hs,hrec,-⟩ := hlife.recorded
  have hsize : (inodeView s i).iSize.toInt = 40961 := hrec.size
  have ho : strToOffset nearText = some ((40960 : ℕ) : ℤ) := by decide
  have hone : strToSize oneText = some 1 := by decide
  have hno : ¬Overruns (inodeView s i).iSize.toInt 40960 1 := by
    rw [hsize]
    decide
  have hsafe := (cmdRead_inside_iff hs hf ho (by decide) hone).mpr hno
  obtain ⟨c,E,hready⟩ := ready_of_reachable hs
  obtain ⟨t,ht,hrun⟩ := cmdReadUpToCopy_iff hready hf ho hone
  have hend : ¬(inodeView s i).iSize.toInt < toInt64 ((40960 : ℕ) + toInt64 (1 : ℕ)) := by
    rw [hsize]
    decide
  have hcopy := readFileUpToCopy_copies ht (held_hold c i) (putFile_total hready hf ht).returns
    hend (by decide) (by decide) (by decide) (by decide)
  rw [Total,← hrun] at hcopy
  refine ⟨i,s,hs,hsize,(Total.and_wlp hcopy hsafe.wlp).mono ?_⟩
  rintro _ _ ⟨⟨block,rfl⟩,hin⟩
  exact ⟨hin,_,rfl,rfl⟩

/-- The size -1 passes the checks at the offset 1, and the copy has the size of all of the
addresses, to a buffer without a byte. -/
theorem largest_read_not_inside : FsReachable fileTestfs ∧ ∃ i, NamesFile fileTestfs fileName i ∧
    strToOffset oneText = some 1 ∧ strToSize minusOneText = some (2^64 - 1) ∧
    Total (cmdReadUpToCopy [fileName,oneText,minusOneText]) fileTestfs (fun r _ =>
      ∃ m, r = .ok m ∧ m.size = 2^64 - 1 ∧ m.room = 0 ∧
        ¬Inside (inodeView fileTestfs i).iSize.toInt 1 (2^64 - 1) m) := by
  obtain ⟨c,E,hready⟩ := ready_of_reachable fileTestfs_reachable
  obtain ⟨i,hf,hself⟩ := fileTestfs_namesFile
  have ho : strToOffset oneText = some ((1 : ℕ) : ℤ) := by decide
  have hsize : strToSize minusOneText = some (2^64 - 1) := by decide
  obtain ⟨t,ht,hrun⟩ := cmdReadUpToCopy_iff hready hf ho hsize
  have hput := (putFile_total hready hf ht).returns
  have hzero : (inodeView fileTestfs i).iSize.toInt = 0 := by
    rw [hself]
    rfl
  have h1 : ¬(inodeView fileTestfs i).iSize.toInt < toInt64 ((1 : ℕ) + toInt64 (2^64 - 1 : ℕ)) := by
    rw [hzero]
    decide
  have hroom : toSize ((2^64 - 1 : ℕ) + 1) = 0 := by decide
  have hcopy := readFileUpToCopy_copies ht (held_hold c i) hput h1 (by decide) (by decide)
    (by decide) (by decide)
  refine ⟨fileTestfs_reachable,i,hf,ho,hsize,?_⟩
  rw [Total,hrun]
  refine hcopy.mono ?_
  rintro _ _ ⟨block,rfl⟩
  refine ⟨_,rfl,rfl,hroom,fun hin => ?_⟩
  have hfile := hin.file
  omega

end ReadBounds
end OsLabs

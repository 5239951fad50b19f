import Mathlib.Data.BitVec
import Mathlib.Tactic
import OsLabs.Bytes
import OsLabs.Wlp
import OsLabs.Transition
import OsLabs.FsModel
import OsLabs.DirModel
import OsLabs.FsVolume
import OsLabs.FsAccounts
import OsLabs.Dirents
import OsLabs.DirMap
import OsLabs.DirOps
import OsLabs.FsCreation
import OsLabs.FsTree
import OsLabs.FsCommands
import OsLabs.FsReading
import OsLabs.FsWriting
import OsLabs.FsImage
import OsLabs.FsMaking
import OsLabs.FsSessions
import OsLabs.FsGrowth
import OsLabs.WriteEffects
import OsLabs.InodeReferences

/-!
# Block numbers in an int

`testfs_write_data` computes the logical block number of an offset in a `long` and passes it to
functions that take an `int`. What they compare with the limits is the converted number: an
offset far beyond the largest file may be refused, may fail an assertion, or may be taken for an
offset inside of the file.
-/

namespace OsLabs
namespace BlockNarrowing

open Bytes FsModel DirModel FsVolume FsAccounts Dirents DirMap DirOps FsCreation
open FsTree FsCommands FsReading FsWriting FsImage FsMaking FsSessions FsGrowth WriteEffects
open InodeReferences

/-- The block number of an offset, as `testfs_allocate_block` and `testfs_read_block` get it. -/
def blockNr (start : ℤ) : ℤ := toInt32 (start.tdiv blockSize)

theorem blockNr_natCast (o : ℕ) : blockNr o = toInt32 (o/blockSize : ℕ) := by
  rw [blockNr,(natCast_tdiv_blockSize o).1]

/-- Up to this offset the conversion keeps the number. -/
theorem blockNr_of_lt {o : ℕ} (h : o < 2^44) : blockNr o = (o/blockSize : ℕ) := by
  rw [blockNr_natCast]
  exact toInt32_natCast (by simp only [blockSize]; omega)

/-- The write has failed, and the inode, its contents and the free maps are as they were. -/
structure Refused (i : ℕ) (s : Testfs) (r : ℤ) (t : Testfs) : Prop where
  neg : r < 0
  inode : inodeView t i = inodeView s i
  contents : contents (volume t) i = contents (volume s) i
  inodeUsed : (volume t).inodeUsed = (volume s).inodeUsed
  blockUsed : (volume t).blockUsed = (volume s).blockUsed

section Writing

variable {s t : Testfs} {c : Memory} {v : Volume} {i : ℕ}

/-- The assertion of `testfs_allocate_block` fails for a negative block number. -/
theorem testfsWriteData_fails {buf : List Byte} {o : ℕ} (hneg : blockNr o < 0)
    (hfit : o % blockSize + buf.length ≤ blockSize) (s : Testfs) :
    ¬Returns (testfsWriteData i buf o) s := by
  obtain ⟨hdiv,hmod⟩ := natCast_tdiv_blockSize o
  have hsize : toSize ((o % blockSize : ℕ) + (buf.length : ℤ)) = o % blockSize + buf.length := by
    rw [← Nat.cast_add,toSize_natCast (by simp only [blockSize] at hfit ⊢; omega)]
  rw [blockNr_natCast] at hneg
  refine Wlp.not_returns ?_
  simp only [testfsWriteData]
  rw [hmod,hsize,if_neg (Nat.not_lt.mpr hfit),hdiv,Wlp.bind_iff,testfsAllocateBlock,Wlp.bind_iff,
    Wlp.guard_iff]
  exact fun hc => absurd hneg (not_lt.mpr hc)

/-- A write is refused when the converted number is that of no block that can be written. -/
theorem testfsWriteData_refused_iff (h : Valid s c v) (hi : Held c i) (buf : List Byte) {o : ℕ}
    (hfit : o % blockSize + buf.length ≤ blockSize) :
    Total (testfsWriteData i buf o) s (Refused i s) ↔
      0 ≤ blockNr o ∧ ¬Fits v i (blockNr o).toNat := by
  by_cases hneg : blockNr o < 0
  · exact ⟨fun hr => absurd hr.returns (testfsWriteData_fails hneg hfit s),
      fun hc => absurd hc.1 (not_le.mpr hneg)⟩
  · obtain ⟨n,hn⟩ := Int.eq_ofNat_of_zero_le (not_lt.mp hneg)
    have hm : i ∈ (c.touch i).dirty := Set.mem_insert i _
    have htotal := (testfsWriteData_total hm (h.touch i) hi buf (blockNr_natCast o ▸ hn)
      hfit).and_wlp (testfsWriteData_spec hm (h.stands.touch i) h.accounts buf o)
    rw [hn,Int.toNat_natCast]
    constructor
    · intro hr
      refine ⟨Int.natCast_nonneg n,fun hfits => ?_⟩
      obtain ⟨r,t,hrun,href⟩ := hr
      obtain ⟨⟨-,hno,-⟩ | ⟨rfl,-⟩,-⟩ := htotal.wlp r t hrun
      · exact hno hfits
      · exact absurd href.neg (by omega)
    · rintro ⟨-,hno⟩
      refine htotal.mono ?_
      rintro r t ⟨⟨hr,-⟩ | ⟨-,hfits,-⟩,hspec⟩
      · obtain ⟨-,ht,-⟩ := hspec.resolve_right fun hc => by
          obtain ⟨w,hw,-⟩ := hc
          omega
        have he : volume t = volume s := ht.volume_eq.trans h.stands.volume_eq.symm
        have hin : inodeView t = inodeView s := congrArg Volume.inode he
        exact ⟨hr,congrFun hin i,by rw [he],by rw [he],by rw [he]⟩
      · exact absurd hfits hno

theorem not_fits_of_le {n : ℕ} (h : nrLogical ≤ n) : ¬Fits v i n :=
  fun hf => absurd hf.lt (Nat.not_lt.mpr h)

theorem valid_of_got (hs : FsReachable s) (hget : (testfsGetInode i).run s = some ((),t)) :
    ∃ c, Valid t c (volume t) ∧ Held c i := by
  obtain ⟨c,E,hready⟩ := ready_of_reachable hs
  have ht := testfsGetInode_valid hready.valid i _ _ hget
  have hv := ht.stands.volume_eq
  exact ⟨_,hv ▸ ht,held_hold c i⟩

/-- Writing to any inode at any offset is refused exactly if the number of the block is not
negative after its conversion and there is no such block or no room for it. -/
theorem write_refused_iff (hs : FsReachable s) (hget : (testfsGetInode i).run s = some ((),t))
    {start : ℤ} (h0 : 0 ≤ start) {buf : List Byte}
    (hfit : start % blockSize + buf.length ≤ blockSize) :
    Total (testfsWriteData i buf start) t (Refused i t) ↔
      0 ≤ blockNr start ∧ ¬Fits (volume t) i (blockNr start).toNat := by
  lift start to ℕ using h0
  obtain ⟨c,ht,hi⟩ := valid_of_got hs hget
  exact testfsWriteData_refused_iff ht hi buf (by exact_mod_cast hfit)

theorem write_refused_of_lt (hs : FsReachable s) (hget : (testfsGetInode i).run s = some ((),t))
    {o : ℕ} (hfar : nrLogical ≤ o/blockSize) (hlt : o < 2^44) {buf : List Byte}
    (hfit : o % blockSize + buf.length ≤ blockSize) :
    Total (testfsWriteData i buf o) t (Refused i t) := by
  obtain ⟨c,ht,hi⟩ := valid_of_got hs hget
  refine (testfsWriteData_refused_iff ht hi buf hfit).mpr ?_
  rw [blockNr_of_lt hlt,Int.toNat_natCast]
  exact ⟨Int.natCast_nonneg _,not_fits_of_le hfar⟩

end Writing

/-! ## Far offsets of a new file -/

theorem first_beyond_refused : ∃ i t, (testfsGetInode i).run fileTestfs = some ((),t) ∧
    Total (testfsWriteData i [97] (2058*8192)) t (Refused i t) := by
  obtain ⟨i,c,E,hready,hfile⟩ := fileTestfs_ready
  obtain ⟨_,t,hget⟩ := testfsGetInode_returns hready.valid.stands hfile.lt
  have hnr : blockNr (2058*8192) = 2058 := by decide
  refine ⟨i,t,hget,(write_refused_iff fileTestfs_reachable hget (by norm_num)
    (by simp only [blockSize,List.length_singleton]; norm_num)).mpr ?_⟩
  rw [hnr]
  exact ⟨by decide,not_fits_of_le (by decide)⟩

/-- An offset far beyond the range fails an assertion, and one that is taken for the start of the
file is accepted. -/
theorem far_beyond_not_refused : FsReachable fileTestfs ∧
    ∃ i t, (testfsGetInode i).run fileTestfs = some ((),t) ∧
      ¬Returns (testfsWriteData i [97] (2^44)) t ∧
      Total (testfsWriteData i [97] (2^45)) t (fun r _ => r = 1) ∧
      ¬Total (testfsWriteData i [97] (2^45)) t (Refused i t) := by
  obtain ⟨i,c,E,hready,hfile⟩ := fileTestfs_ready
  obtain ⟨_,t,hget⟩ := testfsGetInode_returns hready.valid.stands hfile.lt
  obtain ⟨c',ht,hi⟩ := valid_of_got fileTestfs_reachable hget
  have hvol : volume t = volume fileTestfs :=
    (testfsGetInode_valid hready.valid i _ _ hget).stands.volume_eq
  have hfits : Fits (volume t) i 0 := by
    rw [hvol]
    exact hfile.fits i (Nat.succ_pos _)
  have haccept := (testfsWriteData_total (o := 2^45) (n := 0) (Set.mem_insert i _) (ht.touch i) hi
    [97] (by decide) (by decide)).mono fun r u hr => (hr.resolve_left fun hc => hc.2.1 hfits).1
  refine ⟨fileTestfs_reachable,i,t,hget,?_,haccept,fun hr => ?_⟩
  · exact testfsWriteData_fails (o := 2^44) (by decide) (by decide) t
  · obtain ⟨r,u,hrun,href⟩ := hr
    have hone := haccept.wlp r u hrun
    have hneg := href.neg
    simp only [List.length_singleton] at hone
    omega

end BlockNarrowing
end OsLabs

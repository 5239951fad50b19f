import Mathlib.Data.BitVec
import Mathlib.Tactic
import OsLabs.Bytes
import OsLabs.Wlp
import OsLabs.FsModel
import OsLabs.DirModel
import OsLabs.FsVolume
import OsLabs.FsAccounts
import OsLabs.Dirents
import OsLabs.DirOps
import OsLabs.FsTree
import OsLabs.FsCommands
import OsLabs.FsReading
import OsLabs.FsWriting
import OsLabs.FsSessions
import OsLabs.BlockNarrowing
import OsLabs.FsGrowth
import OsLabs.FsFiles
import OsLabs.FsFrames
import OsLabs.FileHistory

/-!
# Reading back what was written

A write changes the bytes of its range and no others, in no other file, and what lies between the
old end of the file and the range is zero. `testfs_read_data` returns these bytes as long as the
size of the file is not beyond its last block.
-/

namespace OsLabs
namespace WriteReadBack

open Bytes FsModel DirModel FsVolume FsAccounts Dirents DirOps FsTree FsCommands FsReading FsWriting
open FsSessions FsGrowth BlockNarrowing FsFiles FsFrames FileHistory

/-- A part of one block inside of a file of this size. -/
structure Range (size : ℤ) (p m : ℕ) : Prop where
  pos : 0 < m
  fit : p % blockSize + m ≤ blockSize
  le : ((p + m : ℕ) : ℤ) ≤ size

/-- The byte at `q` is one of those of the write. -/
def Covers (x : Write) (q : ℕ) : Prop := x.offset ≤ q ∧ q < x.offset + x.buf.length

/-- What a write to the inode `i`, which was got in the state `s`, has made of the state `t`. -/
structure ReadsBack (s t u : Testfs) (i o : ℕ) (buf : List Byte) : Prop where
  size : (inodeView u i).iSize.toInt = max (inodeView t i).iSize.toInt (o + buf.length : ℕ)
  before : ∀ p m, Range (inodeView t i).iSize.toInt p m → Total (testfsReadData i p m) t fun r _ =>
    r = ((m : ℤ),copyOut (contents (volume t) i) p m)
  after : ∀ p m, Range (inodeView u i).iSize.toInt p m → Total (testfsReadData i p m) u fun r _ =>
    r = ((m : ℤ),copyOut (copyIn (contents (volume t) i) o buf) p m)
  beyond : ∀ q : ℕ, (inodeView t i).iSize.toInt ≤ q → contents (volume t) i q = 0
  unwritten : ∀ maps ws, Life i maps ws s → ∀ q, (∀ x ∈ ws, ¬Covers x q) →
    contents (volume t) i q = 0
  others : ∀ j, j ≠ i → inodeView u j = inodeView t j ∧
    contents (volume u) j = contents (volume t) j

section Reading

variable {s t u : Testfs} {c : Memory} {v w : Volume} {i o p m : ℕ} {buf : List Byte}

theorem testfsReadData_total (h : Valid s c v) (hi : Held c i) (ht : Tail v i)
    (hsize : (v.inode i).iSize.toInt ≤ nrLogical*blockSize)
    (hr : Range (v.inode i).iSize.toInt p m) :
    Total (testfsReadData i p m) s fun r _ => r = ((m : ℤ),copyOut (contents v i) p m) := by
  have hnat : (v.inode i).iSize.toInt = (v.inode i).iSize.toNat := by
    have h0 := ht.nonneg
    have hlt := (v.inode i).iSize.isLt
    rw [BitVec.toInt_eq_toNat_cond] at h0 ⊢
    omega
  have hle := hr.le
  rw [hnat] at hsize hle
  have hend : (v.inode i).iSize.toNat ≤ nrLogical*blockSize := by exact_mod_cast hsize
  have hin : p + m ≤ (v.inode i).iSize.toNat := by exact_mod_cast hle
  refine ((testfsReadData_returns h hi hend hin hr.fit).total
    (testfsReadData_spec h.stands h.accounts hend hin hr.pos hr.fit)).mono ?_
  exact fun _ _ hread => hread.2

theorem testfsReadData_beyond (h : Valid s c v) (hi : Held c i)
    (hsize : (nrLogical*blockSize : ℕ) < (v.inode i).iSize.toInt) :
    Total (testfsReadData i (nrLogical*blockSize : ℕ) 1) s fun r _ => r.1 < 0 := by
  have hend : toInt64 ((nrLogical*blockSize : ℕ) + toInt64 (1 : ℕ)) = (nrLogical*blockSize : ℕ) + 1 := by
    decide
  have hone : toSize (((nrLogical*blockSize : ℕ) : ℤ).tmod blockSize + (1 : ℕ)) = 1 := by decide
  have hnr : toInt32 (((nrLogical*blockSize : ℕ) : ℤ).tdiv blockSize) = nrLogical := by decide
  have hin : ¬(v.inode i).iSize.toInt < (nrLogical*blockSize : ℕ) + 1 := by omega
  have hfit : ¬blockSize < 1 := by decide
  refine Total.bind (((inodeOf_returns h.stands hi).total (inodeOf_spec h.stands i)).mono ?_)
  rintro inode t ⟨rfl,-,hv⟩
  simp only [hv]
  rw [hend,if_neg hin,hone,if_neg hfit,hnr]
  refine Total.bind (((testfsReadBlock_returns h hi (Int.natCast_nonneg nrLogical)).total
    (testfsReadBlock_spec h.stands h.accounts i _)).mono ?_)
  rintro ⟨r,block⟩ t1 ⟨-,-,⟨-,hneg⟩ | ⟨hlt,-⟩⟩
  · simp only at hneg ⊢
    rw [if_pos hneg]
    exact Total.pure hneg
  · exact absurd hlt (lt_irrefl _)

theorem write_arith (hrange : o/blockSize < nrLogical)
    (hfit : o % blockSize + buf.length ≤ blockSize) :
    o < 2^44 ∧ o + buf.length ≤ nrLogical*blockSize ∧ blockNr o = (o/blockSize : ℕ) := by
  have hlt : o < 2^44 := by
    simp only [nrLogical,blockSize] at hrange
    omega
  refine ⟨hlt,?_,blockNr_of_lt hlt⟩
  simp only [nrLogical,blockSize] at *
  omega

/-- Where no write has put a byte, the file is zero, as long as it ends before its last block. -/
theorem written_eq_zero {ws : List Write} {q : ℕ} (h : extent ws ≤ nrLogical*blockSize)
    (hq : ∀ x ∈ ws, ¬Covers x q) : written ws q = 0 := by
  induction ws with
  | nil => rfl
  | cons x ws ih =>
    have hrest := fun h' => ih h' fun y hy => hq y (.tail _ hy)
    rw [extent] at h
    rw [written]
    by_cases hb : x.buf = []
    · rw [if_pos hb] at h
      rw [hb,copyIn_of_notMem _ (by simp only [List.length_nil]; omega)]
      exact hrest h
    · rw [if_neg hb] at h
      have hpos := List.length_pos_iff.mpr hb
      have hlt : x.offset < 2^44 := by
        simp only [nrLogical,blockSize] at h
        omega
      have hat : x.nr*blockSize + x.offset % blockSize = x.offset := by
        rw [Write.nr,blockNr_of_lt hlt,Int.toNat_natCast]
        exact Nat.div_add_mod' ..
      rw [hat,copyIn_of_notMem _ (hq x (.head _))]
      exact hrest ((le_max_left _ _).trans h)

theorem ReadsBack.of_stored (hs : FsReachable s) (hget : (testfsGetInode i).run s = some ((),t))
    (ht : Valid t c (volume t)) (hu : Valid u c (volume u)) (hi : Held c i)
    (hst : Stored i o buf (volume t) (volume u)) (hb : buf ≠ []) (hrange : o/blockSize < nrLogical)
    (hsize : (inodeView t i).iSize.toInt ≤ nrLogical*blockSize) : ReadsBack s t u i o buf := by
  obtain ⟨hsound,c',E,hready⟩ := sound_of_run hs
  have hvol : volume t = volume s :=
    (testfsGetInode_valid hready.valid i _ _ hget).stands.volume_eq
  have htail : Tail (volume t) i := hvol ▸ hsound.tail i
  have hw := hst.written
  obtain ⟨hlt,hend,hnr⟩ := write_arith hrange hw.offset_le
  rw [hnr,Int.toNat_natCast] at hw
  have hnew := toInt_iSize_of_written hw (by simp only [nrLogical,blockSize] at hend; omega)
  rw [if_neg hb] at hnew
  have hn : toInt32 (o/blockSize : ℕ) = (o/blockSize : ℕ) := by rw [← blockNr_natCast,hnr]
  have htail' : Tail (volume u) i :=
    tail_of_written hw hn rfl (hlt.trans (by norm_num)) (fun _ => by omega) htail
  have hcont := Written.contents_eq hw
  rw [Nat.div_add_mod'] at hcont
  refine ⟨hnew,fun p m => testfsReadData_total ht hi htail hsize,fun p m hr => ?_,htail.zero,
    fun maps ws hlife q hq => ?_,fun j hj => ⟨hw.frame.inode j hj,?_⟩⟩
  · rw [← hcont]
    refine testfsReadData_total hu hi htail' ?_ hr
    rw [hnew]
    exact max_le hsize (by exact_mod_cast hend)
  · obtain ⟨-,hrec,-⟩ := hlife.recorded
    rw [hvol,hrec.contents]
    refine written_eq_zero ?_ hq
    have hold : ((volume t).inode i).iSize.toInt ≤ nrLogical*blockSize := hsize
    rw [hvol,hrec.size] at hold
    exact_mod_cast hold
  · funext q
    rw [contents,contents,hw.frame.logical j hj]

theorem range_beyond {size : ℤ} (h : (nrLogical*blockSize : ℕ) < size) :
    Range size (nrLogical*blockSize) 1 :=
  ⟨Nat.one_pos,by decide,by push_cast at h ⊢; omega⟩

theorem not_readsBack (hu : Valid u c (volume u)) (hi : Held c i)
    (hlarge : (nrLogical*blockSize : ℕ) < (inodeView u i).iSize.toInt) :
    ¬ReadsBack s t u i o buf := by
  intro hback
  obtain ⟨r,u',hread,hone⟩ := hback.after _ _ (range_beyond hlarge)
  have hneg := (testfsReadData_beyond hu hi hlarge).wlp r u' hread
  rw [hone] at hneg
  omega

/-- What was written reads back, and nothing else has changed, if and only if the file did not
already go beyond its last block, or there is no room for the write. -/
theorem write_reads_back_iff (hs : FsReachable s) (hget : (testfsGetInode i).run s = some ((),t))
    (hb : buf ≠ []) (hfit : o % blockSize + buf.length ≤ blockSize)
    (hrange : o/blockSize < nrLogical) :
    Total (testfsWriteData i buf o) t (fun r u => r = buf.length → ReadsBack s t u i o buf) ↔
      (Fits (volume t) i (o/blockSize) → (inodeView t i).iSize.toInt ≤ nrLogical*blockSize) := by
  obtain ⟨c,ht,hi⟩ := valid_of_got hs hget
  obtain ⟨-,-,hnr⟩ := write_arith hrange hfit
  have hpos := List.length_pos_iff.mpr hb
  have hwrite := (testfsWriteData_total (Set.mem_insert i _) (ht.touch i) hi buf
    (blockNr_natCast o ▸ hnr) hfit).and_wlp
    (testfsWriteData_stored (Set.mem_insert i _) (ht.touch i) hi buf o)
  constructor
  · rintro hr hfits
    by_contra hlarge
    obtain ⟨r,u,hrun,hback⟩ := hr
    obtain ⟨hr,hst⟩ := hwrite.wlp r u hrun
    obtain ⟨rfl,-⟩ := hr.resolve_left fun hc => hc.2.1 hfits
    obtain ⟨-,w,hu,-⟩ := hst.resolve_left fun hc => by omega
    obtain rfl := hu.stands.volume_eq
    refine not_readsBack hu hi ?_ (hback rfl)
    rw [(hback rfl).size]
    exact lt_max_of_lt_left (mod_cast not_le.mp hlarge)
  · intro hcond
    refine hwrite.mono ?_
    rintro r u ⟨⟨hneg,-⟩ | ⟨rfl,hfits,-⟩,hst⟩ hr
    · omega
    · obtain ⟨-,w,hu,hst⟩ := hst.resolve_left fun hc => by omega
      obtain rfl := hu.stands.volume_eq
      exact ReadsBack.of_stored hs hget (ht.touch i) hu hi hst hb hrange (hcond hfits)

/-- A file goes beyond its last block exactly if one of the writes to it did. -/
theorem size_le_iff (hs : FsReachable s) (hm : Marked (volume s) i) (hf : ¬Directory (volume s) i) :
    ∃ maps ws, Life i maps ws s ∧ ((inodeView s i).iSize.toInt ≤ nrLogical*blockSize ↔
      ∀ x ∈ ws, x.buf ≠ [] → x.offset + x.buf.length ≤ nrLogical*blockSize) := by
  obtain ⟨maps,ws,hlife⟩ := exists_life hs hm hf
  obtain ⟨-,hrec,-⟩ := hlife.recorded
  refine ⟨maps,ws,hlife,?_⟩
  show ((volume s).inode i).iSize.toInt ≤ _ ↔ _
  rw [hrec.size]
  constructor
  · intro hle x hx hb
    exact (le_extent hx hb).trans (by exact_mod_cast hle)
  · intro hall
    rcases extent_cases ws with h0 | ⟨y,hy,hb,he⟩
    · rw [h0]
      decide
    · rw [he]
      exact_mod_cast hall y hy hb

end Reading

/-! ## A new file, and one with a far byte -/

theorem first_write_reads_back : ∃ i t, (testfsGetInode i).run fileTestfs = some ((),t) ∧
    Total (testfsWriteData i [97] (40960 : ℕ)) t fun r u =>
      r = 1 → ReadsBack fileTestfs t u i 40960 [97] := by
  obtain ⟨i,c,E,hready,hfile⟩ := fileTestfs_ready
  obtain ⟨_,t,hget⟩ := testfsGetInode_returns hready.valid.stands hfile.lt
  have hvol := (testfsGetInode_valid hready.valid i _ _ hget).stands.volume_eq
  refine ⟨i,t,hget,(write_reads_back_iff fileTestfs_reachable hget (List.cons_ne_nil _ _) (by decide)
    (by decide)).mpr fun _ => ?_⟩
  have hzero : (inodeView t i).iSize = 0 := by
    show ((volume t).inode i).iSize = 0
    rw [hvol,hfile.self]
    rfl
  rw [hzero]
  decide

/-- A file with a byte that was written at an offset that is taken for the start of the file: after
another byte is written there, the part of the file after its last block cannot be read. -/
theorem far_file_not_read_back : ∃ i s t u, FsReachable s ∧
    (testfsGetInode i).run s = some ((),t) ∧ (testfsWriteData i [97] (0 : ℕ)).run t = some (1,u) ∧
    Range (inodeView u i).iSize.toInt (nrLogical*blockSize) 1 ∧
    Total (testfsReadData i (nrLogical*blockSize : ℕ) 1) u (fun r _ => r.1 < 0) ∧
    ¬ReadsBack s t u i 0 [97] := by
  obtain ⟨i,maps,c,E,hready,hfile,hf,hlife⟩ := fileTestfs_life
  have ho : strToOffset farText = some ((35184372088832 : ℕ) : ℤ) := by decide
  obtain ⟨r1,s,hwrite,hr1,-⟩ := cmdWrite_total hready hf letter ho (n := 0)
    (by decide) (by decide) (hfile.fits i (by decide))
  obtain ⟨hs,hrec,-⟩ := (hlife.wrote hf ho hwrite hr1).recorded
  obtain ⟨-,c1,E1,hready1⟩ := sound_of_run hs
  obtain ⟨_,t,hget⟩ := testfsGetInode_returns hready1.valid.stands hfile.lt
  have hvol := (testfsGetInode_valid hready1.valid i _ _ hget).stands.volume_eq
  obtain ⟨c',ht,hi⟩ := valid_of_got hs hget
  have href : ref (volume t) i (slotOf 0) ≠ 0 := by
    rw [hvol]
    exact (hrec.slots _).mpr ⟨_,.head _,.inl rfl⟩
  have hfits : Fits (volume t) i 0 := Fits.of_ref ht.accounts (by decide) href
  obtain ⟨r2,u,hagain,hr2,hst⟩ := (testfsWriteData_total (o := 0) (n := 0) (Set.mem_insert i _)
    (ht.touch i) hi [97] (by decide) (by decide)).and_wlp
    (testfsWriteData_stored (Set.mem_insert i _) (ht.touch i) hi [97] 0)
  obtain ⟨rfl,-⟩ := hr2.resolve_left fun hc => hc.2.1 hfits
  obtain ⟨-,w,hu,hst⟩ := hst.resolve_left fun hc => absurd hc.1 (by decide)
  obtain rfl := hu.stands.volume_eq
  have hold : ((volume t).inode i).iSize.toInt = 35184372088833 := by
    rw [hvol,hrec.size]
    decide
  have hnew : ((nrLogical*blockSize : ℕ) : ℤ) < (inodeView u i).iSize.toInt := by
    have hsize := toInt_iSize_of_written hst.written (by decide)
    rw [if_neg (List.cons_ne_nil _ _),hold] at hsize
    show _ < ((volume u).inode i).iSize.toInt
    rw [hsize]
    decide
  exact ⟨i,s,t,u,hs,hget,hagain,range_beyond hnew,testfsReadData_beyond hu hi hnew,
    not_readsBack hu hi hnew⟩

end WriteReadBack
end OsLabs

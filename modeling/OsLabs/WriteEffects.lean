import Mathlib.Data.BitVec
import Mathlib.Tactic
import OsLabs.Bytes
import OsLabs.Wlp
import OsLabs.FsModel
import OsLabs.DirModel
import OsLabs.FsVolume
import OsLabs.FsAccounts
import OsLabs.FsRemoval
import OsLabs.Dirents
import OsLabs.DirMap
import OsLabs.DirOps
import OsLabs.FsCreation

/-!
# Dirty flags and blocks of a write

A write that fails has not touched the inode, with one exception: the indirect block was
allocated, there was no block left for the entry in it, and the indirect block was given back.
Then the volume is the one before, but the flag of the inode is set. A write that succeeds in the
range of the direct blocks takes a block if there was none at its place.
-/

namespace OsLabs
namespace WriteEffects

open Bytes FsModel DirModel FsVolume FsAccounts FsRemoval Dirents DirMap DirOps FsCreation

/-- The indirect block would take the last block, and there is none for the block `n`. -/
structure Undone (v : Volume) (i n : ℕ) : Prop where
  far : nrDirectBlocks ≤ n
  indirect : ref v i .indirect = 0
  last : v.usedBlocks.toNat + 1 = v.maxBlocks.toNat

/-- The number of blocks that the direct block `n` of `i` needs when it is written. -/
def demand (v : Volume) (i n : ℕ) : ℕ := if ref v i (slotOf n) = 0 then 1 else 0

/-- What writing the block `n` of `i` does besides its effect on the volume. -/
structure Effects (c : Memory) (v : Volume) (i n : ℕ) (r : ℤ) (t : Testfs) : Prop where
  clean : r < 0 → Stands t c v ∨ Undone v i n
  count : 0 ≤ r → n < nrDirectBlocks →
    t.sb.usedBlockCount.toNat = v.usedBlocks.toNat + demand v i n

section Blocks

variable {s : Testfs} {c : Memory} {v : Volume} {i : ℕ}

theorem testfsAllocBlockForInode_fails (hs : Stands s c v) (i : ℕ) :
    Wlp (testfsAllocBlockForInode i) s (fun r t => r < 0 → Stands t c v) := by
  rw [testfsAllocBlockForInode,Wlp.bind_iff]
  refine (testfsAllocBlock_spec hs).mono ?_
  rintro r t (⟨hr,ht,-⟩ | ⟨k,-,rfl,-⟩)
  · rw [if_neg (by omega)]
    exact Wlp.pure_iff.mpr fun _ => ht
  · rw [if_pos (by omega),Wlp.bind_iff]
    exact fun _ _ _ => Wlp.pure_iff.mpr fun hneg => by omega

/-- The effects of `testfs_alloc_block_for_inode` with and without success. -/
theorem testfsAllocBlockForInode_effects (hs : Stands s c v) (i : ℕ) :
    Wlp (testfsAllocBlockForInode i) s (fun r t =>
      (r < 0 ∧ Stands t c v ∧
        (v.maxBlocks.toNat ≤ v.usedBlocks.toNat ∨ ∀ k < 2^20, v.blockUsed k = true)) ∨
      ∃ k < 2^20, r = (dataStart + k : ℕ) ∧ v.blockUsed k = false ∧
        v.usedBlocks.toNat < v.maxBlocks.toNat ∧ Dirty t i ∧
        Stands t (c.touch i) ((v.takeBlock k).setInode i (countUp (v.inode i)))) := by
  have hm : i ∈ (c.touch i).dirty := Set.mem_insert i _
  refine ((testfsAllocBlockForInode_spec (hs.touch i) hm).and
    (testfsAllocBlockForInode_fails hs i)).mono ?_
  rintro r t ⟨⟨hr,-,hfull⟩ | ⟨k,hk,hr,hfree,hroom,hd,-,ht⟩,hfail⟩
  · exact .inl ⟨hr,hfail hr,hfull⟩
  · exact .inr ⟨k,hk,hr,hfree,hroom,hd,ht⟩

/-- Without an indirect block of its own `testfs_allocate_block` changes nothing when it fails. -/
theorem allocateEntry_effects (hs : Stands s c v) (h : Accounts v (ref v)) (i k : ℕ) (r : Region)
    (indirectAllocated : Bool) (block : Region) :
    Wlp (allocateEntry i k r indirectAllocated block) s (fun r t => r.1 < 0 →
      Full v ∧ (indirectAllocated = false → Stands t c v)) := by
  simp only [allocateEntry,Wlp.bind_iff,Wlp.guard_iff]
  intro _
  refine (testfsAllocBlockForInode_effects hs i).mono ?_
  rintro phy t (⟨hphy,ht,hfull⟩ | ⟨k,-,rfl,-⟩)
  · refine (inodeOf_spec ht i).mono ?_
    rintro inode t' ⟨rfl,-,-⟩
    rw [if_neg (by omega)]
    cases indirectAllocated with
    | false => exact Wlp.pure_iff.mpr fun _ => ⟨h.full hfull,fun _ => ht⟩
    | true => exact fun _ _ _ _ => ⟨h.full hfull,fun hf => by cases hf⟩
  · intro _ _ _
    rw [if_pos (by omega)]
    simp only [Wlp.bind_iff]
    exact fun _ _ _ => Wlp.pure_iff.mpr fun hneg => by simp only at hneg; omega

theorem toNat_takeBlock (h : Accounts v (ref v)) (hroom : v.usedBlocks.toNat < v.maxBlocks.toNat)
    (k : ℕ) : (v.takeBlock k).usedBlocks.toNat = v.usedBlocks.toNat + 1 := by
  have hmax := h.max
  simp only [nrBlocks] at hmax
  exact toNat_add_one _ (by omega)

theorem testfsAllocateBlock_effects (hs : Stands s c v) (h : Accounts v (ref v)) (i : ℕ) (n : ℤ) :
    Wlp (testfsAllocateBlock i n) s (fun r t => 0 ≤ n ∧ Effects c v i n.toNat r.1 t) := by
  simp only [testfsAllocateBlock,Wlp.bind_iff,Wlp.guard_iff]
  intro hn
  refine (testfsReadBlock_spec hs h i n).mono ?_
  obtain ⟨n,rfl⟩ := Int.eq_ofNat_of_zero_le hn
  simp only [Int.toNat_natCast]
  rintro ⟨phy,block⟩ t ⟨rfl,-,hphy⟩
  simp only at hphy ⊢
  rw [Wlp.ite_iff]
  constructor
  · -- there is a block, or none is possible
    intro h0
    refine Wlp.pure_iff.mpr ⟨hn,fun _ => .inl hs,fun hpos hlt => ?_⟩
    obtain ⟨-,hphy,-⟩ := hphy.resolve_left fun hc => absurd hc.2 (by simp only at hpos; omega)
    rw [demand,if_neg (by omega),hs.usedBlocks_eq,Nat.add_zero]
  · intro h0
    obtain ⟨hlog,hphy,-⟩ := hphy.resolve_left fun hc => absurd hc.2 (by omega)
    have hzero : ref v i (slotOf n) = 0 := by omega
    simp only [Wlp.bind_iff]
    refine (inodeOf_spec hs i).mono ?_
    rintro inode t' ⟨rfl,-,hv⟩
    rw [hv]
    by_cases h10 : n < nrDirectBlocks
    · rw [if_pos (by exact_mod_cast h10)]
      simp only [Wlp.bind_iff,Wlp.guard_iff]
      intro _
      refine (testfsAllocBlockForInode_effects hs i).mono ?_
      rintro phy' t1 (⟨hphy',ht,-⟩ | ⟨k,hk,rfl,hfree,hroom,hd,ht⟩)
      · rw [if_neg (by omega),Wlp.pure_iff]
        exact ⟨hn,fun _ => .inl ht,fun hpos => by simp only at hpos; omega⟩
      · rw [if_pos (by omega),Wlp.bind_iff]
        refine (modifyDinode_spec ht hd _).mono ?_
        rintro _ t2 ⟨h2,-⟩
        refine Wlp.pure_iff.mpr ⟨hn,fun hneg => by simp only at hneg; omega,fun _ _ => ?_⟩
        rw [h2.usedBlocks_eq,demand,if_pos hzero]
        exact toNat_takeBlock h hroom k
    · have hlt : ¬((n : ℤ) < (nrDirectBlocks : ℤ)) := by exact_mod_cast h10
      have hlog' : ¬((nrIndirectBlocks : ℤ) ≤ (n : ℤ) - (nrDirectBlocks : ℤ)) := by
        simp only [nrIndirectBlocks,nrDirectBlocks,nrLogical] at *
        omega
      have hcount : ∀ {r : ℤ} {t : Testfs}, 0 ≤ r → n < nrDirectBlocks →
          t.sb.usedBlockCount.toNat = v.usedBlocks.toNat + demand v i n := fun _ hc => absurd hc h10
      rw [if_neg hlt,if_neg hlog',Wlp.ite_iff]
      constructor
      · -- there is no indirect block yet
        intro hi0
        have hind := (indirect_eq_zero_iff i).mpr hi0
        rw [Wlp.bind_iff]
        refine (testfsAllocBlockForInode_effects hs i).mono ?_
        rintro phy' t1 (⟨hphy',ht,-⟩ | ⟨k,hk,rfl,hfree,hroom,hd,ht⟩)
        · rw [if_pos hphy',Wlp.pure_iff]
          exact ⟨hn,fun _ => .inl ht,hcount⟩
        · rw [if_neg (by omega),Wlp.bind_iff]
          refine (modifyDinode_spec ht hd _).mono ?_
          rintro _ t2 ⟨h2,-⟩
          rw [Volume.setInode_inode_self,Volume.setInode_setInode] at h2
          obtain ⟨h3,-,-⟩ := grown_indirect h hind hk hfree hroom rfl
          refine (allocateEntry_effects h2 h3 i _ _ true block).mono ?_
          refine fun r t3 hr => ⟨hn,fun hneg => .inr ⟨Nat.not_lt.mp h10,hind,?_⟩,hcount⟩
          -- the entry found no block after the indirect one was taken
          have hfull : v.maxBlocks.toNat ≤ (v.takeBlock k).usedBlocks.toNat := (hr hneg).1
          rw [toNat_takeBlock h hroom] at hfull
          omega
      · intro _
        rw [Wlp.bind_iff,h.toInt_indirect]
        have hind : ref v i .indirect ≠ 0 := fun hz => by
          rename_i hi0
          exact hi0 ((indirect_eq_zero_iff i).mp hz)
        refine (readBlocks_spec hs (by exact_mod_cast (h.range hind).1)).mono ?_
        rintro r t1 ⟨rfl,rfl⟩
        refine (allocateEntry_effects hs h i _ _ false block).mono ?_
        exact fun r t3 hr => ⟨hn,fun hneg => .inl ((hr hneg).2 rfl),hcount⟩

theorem testfsWriteData_effects (hs : Stands s c v) (h : Accounts v (ref v)) (i : ℕ)
    (buf : List Byte) (start : ℤ) :
    Wlp (testfsWriteData i buf start) s (fun r t =>
      (blockSize < toSize (start.tmod blockSize + buf.length) → Stands t c v) ∧
      Effects c v i (toInt32 (start.tdiv blockSize)).toNat r t) := by
  simp only [testfsWriteData]
  rw [Wlp.ite_iff]
  constructor
  · intro _
    exact Wlp.pure_iff.mpr ⟨fun _ => hs,fun _ => .inl hs,fun hpos => absurd hpos (by decide)⟩
  · intro hfit
    rw [Wlp.bind_iff]
    refine (testfsAllocateBlock_effects hs h i _).mono ?_
    rintro ⟨r,block⟩ t ⟨-,he⟩
    simp only at he ⊢
    rw [Wlp.ite_iff]
    refine ⟨fun _ => Wlp.pure_iff.mpr ⟨fun hbig => absurd hbig hfit,he⟩,fun hr => ?_⟩
    simp only [Wlp.bind_iff,Wlp.guard_iff,wlp_writeBlocks,modifyDirty,wlp_inodeOf,wlp_setInode]
    intro _ _ inode _
    exact Wlp.pure_iff.mpr ⟨fun hbig => absurd hbig hfit,fun hneg => by omega,
      fun _ hn => he.count (by omega) hn⟩

end Blocks

/-! ## Entries of directories -/

section Entries

variable {s : Testfs} {c : Memory} {v : Volume} {d i : ℕ} {es : List Entry} {name : CString}

theorem writeEntry_effects (hs : Stands s c v) (h : Accounts v (ref v)) (d : ℕ) {e : Entry}
    (he : e.size < 2^32) {o : ℕ} (ho : o ≤ nrLogical*blockSize) :
    Wlp (testfsWriteData d e.bytes o) s (fun r t =>
      (blockSize < o % blockSize + e.size → Stands t c v) ∧ Effects c v d (o/blockSize) r t) := by
  obtain ⟨hdiv,hmod,hint⟩ := offset_arith ho
  refine (testfsWriteData_effects hs h d e.bytes o).mono ?_
  have hsize : toSize ((o % blockSize : ℕ) + (e.size : ℤ)) = o % blockSize + e.size := by
    rw [← Nat.cast_add,toSize_natCast (by simp only [blockSize]; omega)]
  rw [hdiv,hmod,hint,Int.toNat_natCast,Entry.length_bytes,hsize]
  exact fun _ _ hr => hr

/-- The block of an entry is there, so that writing to it allocates nothing. -/
theorem not_undone_of_laid {o stop : ℕ} {e : Entry} (h : Laid (contents v d) o (e::es) stop) :
    ¬Undone v d (o/blockSize) := by
  intro hu
  have href := ref_of_laid h
  rw [slotOf_entry (Nat.not_lt.mpr hu.far)] at href
  simp only [ref] at href
  exact absurd (if_pos ((indirect_eq_zero_iff d).mp hu.indirect)) href

/-- The entry is written at an offset, or there is no memory for it. -/
theorem testfsWriteDirent_effects (hs : Stands s c v) (h : Accounts v (ref v)) (d : ℕ)
    (name : CString) (nr : ℕ) {o : ℕ} (ho : o ≤ nrLogical*blockSize) :
    Wlp (testfsWriteDirent d name (toInt32 (name.1.length + 1)) nr o) s (fun r t =>
      (r < 0 → Stands t c v ∨ Undone v d (o/blockSize) ∧
        toInt32 (name.1.length + 1) = name.1.length + 1 ∧
        o % blockSize + (name.1.length + 9) ≤ blockSize) ∧
      (0 ≤ r → o < nrDirectBlocks*blockSize →
        t.sb.usedBlockCount.toNat = v.usedBlocks.toNat + demand v d (o/blockSize))) := by
  refine testfsWriteDirent_spec
    (fun _ => ⟨fun _ => .inl hs,fun hpos => absurd hpos (by decide)⟩) fun hlen => ?_
  have hlt : name.1.length + 1 < 2^31 := by
    have hb := Int.bmod_lt (x := (name.1.length + 1 : ℤ)) (m := 2^32) (by norm_num)
    rw [toInt32] at hlen
    omega
  have he : (⟨BitVec.ofNat 32 nr,name⟩ : Entry).size = name.1.length + 9 := by
    show 8 + (name.1.length + 1) = _
    omega
  refine (writeEntry_effects hs h d (e := ⟨BitVec.ofNat 32 nr,name⟩) (by omega) ho).mono ?_
  rintro r t ⟨hbig,heff⟩
  rw [he] at hbig
  refine ⟨fun hneg => ?_,fun hpos hdirect => heff.count hpos ?_⟩
  · rcases Nat.lt_or_ge blockSize (o % blockSize + (name.1.length + 9)) with hlt | hfit
    · exact .inl (hbig hlt)
    · exact (heff.clean hneg).imp_right fun hu => ⟨hu,hlen,hfit⟩
  · simp only [nrDirectBlocks,blockSize] at hdirect ⊢
    omega

/-- Adding an entry ends with giving back the indirect block of the directory. -/
structure AddUndone (v : Volume) (d : ℕ) (es : List Entry) (name : CString) : Prop where
  undone : Undone v d (sizes es/blockSize)
  noSlot : ∀ x ∈ es, stopsAt name (name.1.length + 1) x = false
  fits : sizes es % blockSize + (name.1.length + 9) ≤ blockSize

theorem testfsAddDirent_effects (h : Valid s c v) (hd : IsDir v d es) (name : CString) (nr : ℕ) :
    Wlp (testfsAddDirent d name nr) s (fun r t =>
      (r < 0 → Stands t c v ∨ AddUndone v d es name) ∧
      (0 ≤ r → place name es < nrDirectBlocks*blockSize → t.sb.usedBlockCount.toNat =
        v.usedBlocks.toNat + demand v d (place name es/blockSize))) := by
  have hstop := hd.laid.stop_eq
  rw [Nat.zero_add] at hstop
  simp only [testfsAddDirent,Wlp.bind_iff]
  refine (assertDir_spec h.stands d).mono ?_
  rintro _ t ⟨rfl,-⟩
  refine (scanDir_spec h.stands h.accounts hd (stopsAdd_toDirent name _)).mono ?_
  rintro r t1 ⟨rfl,rfl⟩
  cases hf : firstEntry (stopsAt name (toInt32 (name.1.length + 1))) es 0 with
  | mk f k =>
  have hplace : place name es = k := congrArg Prod.snd hf
  have hk : k ≤ nrLogical*blockSize := by
    rw [← hplace]
    exact (place_le name es).trans (hstop ▸ hd.size_le)
  have hint : toInt32 k = k := toInt32_natCast (by simp only [nrLogical,blockSize] at hk; omega)
  have hwrite := testfsWriteDirent_effects h.stands h.accounts d name nr hk
  rw [hplace]
  cases f with
  | some x =>
    obtain ⟨pre,post,rfl,-,-,hpre⟩ := firstEntry_some hf
    rw [Nat.zero_add] at hpre
    simp only [Option.map_some]
    rw [hint,Wlp.ite_iff]
    constructor
    · intro _
      exact Wlp.pure_iff.mpr ⟨fun _ => .inl h.stands,fun hpos => absurd hpos (by decide)⟩
    · intro _
      -- the block of a deleted entry is there
      have hno := not_undone_of_laid (laid_append.mp hd.laid).2
      rw [Nat.zero_add,← hpre] at hno
      exact hwrite.mono fun r t hr =>
        ⟨fun hneg => (hr.1 hneg).imp_right fun hu => absurd hu.1 hno,hr.2⟩
  | none =>
    obtain ⟨hno,hend⟩ := firstEntry_none hf
    rw [Nat.zero_add] at hend
    simp only [Option.map_none,Wlp.bind_iff]
    refine (inodeOf_spec h.stands d).mono ?_
    rintro inode t2 ⟨rfl,-,-⟩
    rw [Wlp.guard_iff,hint]
    intro _
    refine hwrite.mono fun r t hr => ⟨fun hneg => (hr.1 hneg).imp_right ?_,hr.2⟩
    rintro ⟨hu,hlen,hfit⟩
    rw [hend] at hu hfit
    rw [hlen] at hno
    exact ⟨hu,hno,hfit⟩

/-- Removing an entry does not touch the directory unless it succeeds. -/
theorem testfsRemoveDirent_effects (hc : c.Counted) (h : Valid s c v) (hd : IsDir v d es)
    {E : ℕ → List Entry} (hi : ∀ i, (v.inode i).iType = InodeType.dir.code → IsDir v i (E i))
    (name : CString) :
    Wlp (testfsRemoveDirent d name) s (fun r t => r < 0 → Stands t c v) := by
  rw [testfsRemoveDirent,testfsRemoveDirentWith,Wlp.ite_iff]
  refine ⟨fun _ => Wlp.pure_iff.mpr fun _ => h.stands,fun _ => ?_⟩
  rw [Wlp.bind_iff]
  refine (scanDir_spec h.stands h.accounts hd (isEntry_toDirent name)).mono ?_
  rintro r t ⟨rfl,rfl⟩
  cases hf : firstEntry (Entry.isNamed name) es 0 with
  | mk f k =>
  cases f with
  | none => exact Wlp.pure_iff.mpr fun _ => h.stands
  | some e =>
    have hlook : lookup name es = some e := by rw [lookup,← firstEntry_fst _ es 0,hf]
    obtain ⟨pre,post,rfl,-,-,hk⟩ := firstEntry_some hf
    rw [Nat.zero_add] at hk
    subst hk
    have hlaid := (laid_append.mp hd.laid).2
    rw [Nat.zero_add] at hlaid
    have hstop := hlaid.stop_eq
    have hlen := Entry.len_lt hlaid.2.1
    have hsize : ({ e with nr := invalidInodeNr } : Entry).size < 2^32 := by
      show 8 + e.len < _
      omega
    have hlive := toInt_of_live (lookup_some hlook).2.1
    simp only [Option.map_some]
    rw [Wlp.bind_iff]
    refine (testfsRemoveDirentAllowed_spec hc h (hi _)).mono ?_
    rintro r t1 ⟨h1,-⟩
    rw [Wlp.ite_iff]
    refine ⟨fun _ => Wlp.pure_iff.mpr fun _ => h1.stands,fun _ => ?_⟩
    rw [Wlp.bind_iff,Wlp.liftM_iff,Wlp.guard_iff]
    intro _
    rw [Wlp.bind_iff]
    refine (writeEntry_effects h1.stands h1.accounts d hsize
      ((Nat.le_add_right ..).trans (hstop ▸ hd.size_le))).mono ?_
    rintro r2 t2 ⟨-,heff⟩
    rw [Wlp.ite_iff]
    refine ⟨fun _ => Wlp.pure_iff.mpr fun hneg => ?_,fun hneg => Wlp.pure_iff.mpr fun _ => ?_⟩
    · exact absurd hneg (by simp only [Entry.toDirent]; omega)
    · exact (heff.clean (by omega)).resolve_right (not_undone_of_laid hlaid)

end Entries

/-! ## Creation -/

section Creation

variable {s : Testfs} {c : Memory} {v : Volume} {d i : ℕ} {es : List Entry} {name : CString}

theorem testfsCreateEmptyDir_count (hm : i ∈ c.dirty) (h : Valid s c v) (hz : IsDir v i [])
    (h0 : ref v i (slotOf 0) = 0) (p : ℕ) :
    Wlp (testfsCreateEmptyDir p i) s (fun r t =>
      0 ≤ r → t.sb.usedBlockCount.toNat = v.usedBlocks.toNat + 1) := by
  rw [testfsCreateEmptyDir,testfsCreateEmptyDirWith,Wlp.bind_iff]
  refine (assertDir_spec h.stands i).mono ?_
  rintro _ t ⟨rfl,-⟩
  rw [Wlp.bind_iff]
  refine ((testfsAddDirent_spec hm h hz rfl i).and (testfsAddDirent_effects h hz dot i)).mono ?_
  rintro r t1 ⟨h1,-,hcount⟩
  rw [Wlp.ite_iff]
  refine ⟨fun hneg => Wlp.pure_iff.mpr fun hpos => absurd hneg (by omega),fun hpos => ?_⟩
  obtain ⟨w,-,hw,hrw⟩ := h1.resolve_left fun hfail => hpos hfail.1
  have hused : w.usedBlocks.toNat = v.usedBlocks.toNat + 1 := by
    rw [← hw.stands.usedBlocks_eq,hcount (by omega) (by decide)]
    exact congrArg _ (if_pos h0)
  rw [Wlp.bind_iff]
  refine (testfsAddDirent_effects hw hrw.isDir dotdot p).mono ?_
  rintro r t2 ⟨-,hcount⟩
  rw [Wlp.ite_iff]
  constructor
  · intro hneg
    rw [Wlp.bind_iff]
    exact fun _ _ _ => Wlp.pure_iff.mpr fun hpos => absurd hneg (by omega)
  · intro hpos
    have hplace := place_le dotdot (addEntry ⟨BitVec.ofNat 32 i,dot⟩ [])
    have hsize : sizes (addEntry ⟨BitVec.ofNat 32 i,dot⟩ []) = 10 := rfl
    have hzero : place dotdot (addEntry ⟨BitVec.ofNat 32 i,dot⟩ [])/blockSize = 0 := by
      simp only [blockSize]
      omega
    have h2 := hcount (by omega) (by simp only [nrDirectBlocks,blockSize]; omega)
    rw [hzero,demand,if_neg (ref_of_entry hrw.isDir),hused,Nat.add_zero] at h2
    exact Wlp.pure_iff.mpr fun _ => h2

/-- The number of blocks that a new inode of a type needs. -/
def InodeType.blocks (type : InodeType) : ℕ := if type = .dir then 1 else 0

theorem createContents_count (hm : i ∈ c.dirty) (h : Valid s c v) (type : InodeType)
    (hz : type = .dir → IsDir v i []) (h0 : ref v i (slotOf 0) = 0) (p : ℕ) :
    Wlp (createContents type p i) s (fun r t =>
      0 ≤ r → t.sb.usedBlockCount.toNat = v.usedBlocks.toNat + InodeType.blocks type) := by
  rw [createContents,createContentsWith,InodeType.blocks,Wlp.ite_iff]
  constructor
  · intro hdir
    rw [if_pos hdir]
    exact testfsCreateEmptyDir_count hm h (hz hdir) h0 p
  · intro hfile
    rw [if_neg hfile]
    exact Wlp.pure_iff.mpr fun _ => congrArg BitVec.toNat h.stands.usedBlocks_eq

/-- Creating a file or directory ends with giving back the indirect block of the directory. -/
structure CreateUndone (v : Volume) (d : ℕ) (es : List Entry) (type : InodeType)
    (name : CString) : Prop where
  free : ∃ k < nrInodes, v.inodeUsed k = false
  far : nrDirectBlocks ≤ sizes es/blockSize
  indirect : ref v d .indirect = 0
  noSlot : ∀ x ∈ es, stopsAt name (name.1.length + 1) x = false
  fits : sizes es % blockSize + (name.1.length + 9) ≤ blockSize
  last : v.usedBlocks.toNat + InodeType.blocks type + 1 = v.maxBlocks.toNat

/-- A creation that fails has not touched the directory, or has given back its indirect block. -/
theorem testfsCreateFileOrDir_effects (hc : c.Counted) (h : Valid s c v) (hd : IsDir v d es)
    (hused : v.inodeUsed d = true) (hfresh : ∀ i, v.inodeUsed i = false → v.inode i = Dinode.zero)
    (type : InodeType) (name : CString) :
    Wlp (testfsCreateFileOrDir d type name) s (fun r t =>
      r < 0 → (∃ w, Valid t c w) ∨ CreateUndone v d es type name) := by
  rw [testfsCreateFileOrDir,testfsCreateFileOrDirWith,Wlp.bind_iff]
  refine (testfsDirNameToInodeNr_spec h.stands h.accounts hd name).mono ?_
  rintro r t ⟨rfl,hr⟩
  rw [Wlp.ite_iff]
  refine ⟨fun _ => Wlp.pure_iff.mpr fun _ => .inl ⟨v,h⟩,fun hneg => ?_⟩
  have hnew : lookup name es = none := by
    cases hlook : lookup name es with
    | none => rfl
    | some e =>
      rw [hlook] at hr
      have hlive := toInt_of_live (lookup_some hlook).2.1
      simp only at hr
      omega
  rw [Wlp.bind_iff]
  refine (testfsCreateInode_valid h type).mono ?_
  intro r1 t1 h1
  cases r1 with
  | none => exact Wlp.pure_iff.mpr fun _ => .inl ⟨v,h1.1⟩
  | some i =>
    obtain ⟨v1,hv1,ho⟩ := h1
    have hz := hfresh i ho.unused
    have hdi : d ≠ i := by
      rintro rfl
      rw [ho.unused] at hused
      cases hused
    have hmi : i ∈ ((c.touch i).hold i).dirty := Set.mem_insert i _
    have hnil : type = .dir → IsDir v1 i [] := fun hdir => isDir_nil (by rw [ho.self,hz,hdir])
    have href0 : ref v1 i (slotOf 0) = 0 := by rw [ho.ref,ref_zero hz]
    -- the new inode is removed again
    have hundo : ∀ {w : Volume} {t : Testfs} {r : ℤ}, Valid t ((c.touch i).hold i) w →
        Wlp (testfsRemoveInode i >>= fun _ => pure r) t fun r u =>
          r < 0 → (∃ w, Valid u c w) ∨ CreateUndone v d es type name := by
      intro w t r hw
      rw [Wlp.bind_iff]
      refine (testfsRemoveInode_valid hmi hw).mono ?_
      rintro _ t3 ⟨w3,h3,-⟩
      exact Wlp.pure_iff.mpr fun _ => .inl ⟨w3,undo_memory hc h3⟩
    simp only [Wlp.bind_iff]
    refine ((createContents_spec hmi hv1 type hnil d).and
      (createContents_count hmi hv1 type hnil href0 d)).mono ?_
    rintro r2 t2 ⟨⟨hr2,-,-,w,hw,-⟩ | ⟨rfl,w,hw,hf,-⟩,hcount⟩
    · rw [if_pos hr2]
      exact hundo hw
    · have hdw : IsDir w d es := by
        refine isDir_congr hd ?_ ?_
        · rw [hf.inode d hdi,ho.inode d hdi]
        · rw [hf.logical d hdi,ho.logical]
      rw [if_neg (by omega),Wlp.bind_iff]
      refine ((testfsAddDirent_spec (Set.mem_insert d _) (hw.touch d) hdw hnew i).and
        (testfsAddDirent_effects hw hdw name i)).mono ?_
      rintro r3 t3 ⟨⟨hr3,h3,-⟩ | ⟨w3,hr3,-⟩,hfail,-⟩
      · rw [if_pos hr3]
        rcases hfail hr3 with hclean | hu
        · exact hundo ⟨hclean,h3.accounts,h3.backed⟩
        · -- the numbers before the creation
          have hblocks : w.usedBlocks.toNat = v.usedBlocks.toNat + InodeType.blocks type := by
            rw [← hw.stands.usedBlocks_eq,hcount le_rfl,(used_congr h hv1 ho.ref).2]
          have hmax : w.maxBlocks = v.maxBlocks := hf.maxBlocks.trans ho.maxBlocks
          have hind : ref w d .indirect = ref v d .indirect := by rw [hf.ref d hdi,ho.ref]
          refine fun _ _ _ _ => .inr ⟨⟨i,ho.lt,ho.unused⟩,hu.undone.far,?_,hu.noSlot,hu.fits,?_⟩
          · exact hind.symm.trans hu.undone.indirect
          · rw [← hblocks,← hmax]
            exact hu.undone.last
      · rw [if_neg (by omega)]
        simp only [Wlp.bind_iff]
        exact fun _ _ _ _ _ _ _ _ _ => Wlp.pure_iff.mpr fun hneg => absurd hneg (by decide)

end Creation

end WriteEffects
end OsLabs

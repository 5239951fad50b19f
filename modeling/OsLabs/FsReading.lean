import Mathlib.Data.BitVec
import Mathlib.Tactic
import OsLabs.Bytes
import OsLabs.Wlp
import OsLabs.FsModel
import OsLabs.DirModel
import OsLabs.FsVolume
import OsLabs.FsAccounts
import OsLabs.Dirents
import OsLabs.DirMap
import OsLabs.DirOps

/-!
# Reading returns

The functions that read an inode, a block or a directory never fail an assertion and never leave
the device, as long as the file system is valid and the inode that they read is held in memory.
With the specifications of `Dirents` this gives what they return.
-/

namespace OsLabs
namespace FsReading

open Bytes FsModel DirModel FsVolume FsAccounts Dirents DirMap DirOps

/-- The inode is in memory. -/
abbrev Held (c : Memory) (i : ℕ) : Prop := (c.count i).isSome = true

section Inodes

variable {s : Testfs} {c : Memory} {v : Volume} {i : ℕ}

theorem exists_inode (hs : Stands s c v) (hi : Held c i) : ∃ inode, s.inodes i = some inode := by
  rw [Held,← hs.memory.count_eq i,Option.isSome_map] at hi
  exact Option.isSome_iff_exists.mp hi

theorem lt_of_held (hs : Stands s c v) (hi : Held c i) : i < nrInodes := by
  obtain ⟨inode,hc⟩ := exists_inode hs hi
  exact (hs.coherent.cached i inode hc).1

theorem Held.hold (hi : Held c i) (j : ℕ) : Held (c.hold j) i := by
  simp only [Held,Memory.hold]
  by_cases hj : i = j
  · rw [hj,Function.update_self]
    rfl
  · rw [Function.update_of_ne hj]
    exact hi

theorem held_hold (c : Memory) (i : ℕ) : Held (c.hold i) i := by
  simp only [Held,Memory.hold,Function.update_self]
  rfl

theorem inodeOf_returns (hs : Stands s c v) (hi : Held c i) : Returns (inodeOf i) s := by
  obtain ⟨inode,hc⟩ := exists_inode hs hi
  exact Returns.bind (Returns.get s) (Wlp.get_iff.mpr (Returns.lift hc s))

theorem readBlocks_returns {b : ℕ} (hb : b < s.dev.size) : Returns (readBlocks b) s := by
  refine Returns.bind (Returns.get s) (Wlp.get_iff.mpr ?_)
  refine Returns.bind (Returns.guard ⟨Int.natCast_nonneg b,?_⟩ s) fun _ t _ => Returns.pure _ t
  rwa [Int.toNat_natCast]

theorem testfsReadInodeBlock_returns (hs : Stands s c v) (hi : i < nrInodes) :
    Returns (testfsReadInodeBlock i) s := by
  have hblock : i/inodesPerBlock < nrInodeBlocks := by
    simp only [inodesPerBlock,nrInodeBlocks,nrInodes] at *
    omega
  refine Returns.bind (Returns.guard hblock s) (Wlp.guard_iff.mpr fun _ => ?_)
  refine Returns.bind (Returns.get s) (Wlp.get_iff.mpr ?_)
  have hb := hs.inodeBlock_eq i
  have he : (s.sb.inodeBlocksStart.toNat : ℤ) + (i : ℤ)/(inodesPerBlock : ℤ) =
      (18 + i/inodesPerBlock : ℕ) := by
    rw [← hb,Int.toNat_of_nonneg]
    exact Int.add_nonneg (Int.natCast_nonneg _) (Int.ediv_nonneg (Int.natCast_nonneg _) (by decide))
  rw [he]
  exact readBlocks_returns (lt_of_lt_of_le (inodeBlock_lt hi) hs.coherent.sized)

theorem testfsGetInode_returns (hs : Stands s c v) (hi : i < nrInodes) :
    Returns (testfsGetInode i) s := by
  refine Returns.bind (Returns.get s) (Wlp.get_iff.mpr ?_)
  cases s.inodes i with
  | some inode => exact Returns.modify _ s
  | none =>
    refine Returns.bind (testfsReadInodeBlock_returns hs hi) ?_
    exact fun _ t _ => Returns.modify _ t

/-- The assertion of `testfs_put_inode` holds for an inode that is not dirty. -/
theorem testfsPutInode_returns (hs : Stands s c v) (hi : Held c i) (hd : ¬Dirty s i) :
    Returns (testfsPutInode i) s := by
  refine Returns.bind (inodeOf_returns hs hi) ?_
  rw [wlp_inodeOf]
  intro inode hc
  have hclean : inode.dirty = false := by
    by_contra hdirty
    exact hd ⟨inode,hc,by simpa using hdirty⟩
  refine Returns.bind (Returns.guard hclean s) (Wlp.guard_iff.mpr fun _ => ?_)
  exact Returns.ite (fun _ => Returns.modify _ s) fun _ => Returns.modify _ s

end Inodes

section Blocks

variable {s : Testfs} {c : Memory} {v : Volume} {i d : ℕ} {es : List Entry}

theorem readPhysical_returns (h : Valid s c v) (i : ℕ) (l : Slot) :
    Returns (readPhysical (ref v i l)) s := by
  refine Returns.ite (fun hpos => ?_) fun _ => Returns.pure _ s
  refine Returns.bind (readBlocks_returns (h.backed i l (by omega))) ?_
  exact fun _ t _ => Returns.pure _ t

theorem testfsReadBlock_returns (h : Valid s c v) (hi : Held c i) {n : ℤ} (hn : 0 ≤ n) :
    Returns (testfsReadBlock i n) s := by
  have ha := h.accounts
  refine Returns.bind (Returns.guard hn s) (Wlp.guard_iff.mpr fun _ => ?_)
  refine Returns.bind (inodeOf_returns h.stands hi) ((inodeOf_spec h.stands i).mono ?_)
  rintro inode t ⟨rfl,-,hv⟩
  rw [hv]
  refine Returns.ite (fun h10 => ?_) fun h10 => ?_
  · rw [ha.toInt_direct]
    exact readPhysical_returns h i _
  · refine Returns.ite (fun _ => Returns.pure _ t) fun hbig => Returns.ite (fun hpos => ?_) fun _ => ?_
    · rw [ha.toInt_indirect] at hpos ⊢
      have hind : ref v i .indirect ≠ 0 := by omega
      refine Returns.bind (readBlocks_returns (h.backed i .indirect hind)) ?_
      refine (readBlocks_spec h.stands (by exact_mod_cast (ha.range hind).1)).mono ?_
      rintro r t1 ⟨rfl,rfl⟩
      have hk : (n - nrDirectBlocks).toNat < nrIndirectBlocks := by
        simp only [nrIndirectBlocks,nrDirectBlocks] at *
        omega
      rw [Int.toNat_natCast,ha.toInt_entry i ⟨_,hk⟩ hind]
      exact readPhysical_returns h i _
    · exact Returns.ite (fun hc => absurd hc (by decide)) fun _ => Returns.pure _ t

/-- Reading inside of a file and inside of one block. -/
theorem testfsReadData_returns (h : Valid s c v) (hi : Held c d)
    (hsize : (v.inode d).iSize.toNat ≤ nrLogical*blockSize) {o n : ℕ}
    (hend : o + n ≤ (v.inode d).iSize.toNat) (hblock : o % blockSize + n ≤ blockSize) :
    Returns (testfsReadData d o n) s := by
  obtain ⟨h1,h3,h4,h5,h6⟩ := readData_arith (o := o) (n := n) (hend.trans hsize) hblock
  refine Returns.bind (inodeOf_returns h.stands hi) ((inodeOf_spec h.stands d).mono ?_)
  rintro inode t ⟨rfl,-,hv⟩
  have h2 : ¬(v.inode d).iSize.toInt < ((o + n : ℕ) : ℤ) := by
    rw [toInt_iSize hsize]
    exact_mod_cast Nat.not_lt.mpr hend
  simp only [hv]
  rw [h1,if_neg h2,h3,h4,h5,h6]
  refine Returns.ite (fun _ => Returns.pure _ t) fun _ => ?_
  refine Returns.bind (testfsReadBlock_returns h hi (Int.natCast_nonneg _)) ?_
  rintro ⟨r,block⟩ t1 -
  refine Returns.ite (fun _ => Returns.pure _ t1) fun _ => ?_
  refine Returns.bind (Returns.guard ⟨Int.natCast_nonneg _,?_⟩ t1) fun _ t2 _ => Returns.pure _ t2
  rwa [Int.toNat_natCast]

end Blocks

section Directories

variable {s : Testfs} {c : Memory} {v : Volume} {d : ℕ} {es : List Entry}

theorem assertDir_returns (hs : Stands s c v) (hi : Held c d)
    (ht : (v.inode d).iType = InodeType.dir.code) : Returns (assertDir d) s := by
  refine Returns.bind (inodeOf_returns hs hi) ((inodeOf_spec hs d).mono ?_)
  rintro inode t ⟨rfl,-,hv⟩
  rw [hv]
  exact Returns.guard ht t

theorem testfsNextDirent_total_cons (h : Valid s c v) (hi : Held c d) (hd : IsDir v d es) {o : ℕ}
    {e : Entry} {rest : List Entry} (hl : Laid (contents v d) o (e::rest) (v.inode d).iSize.toNat) :
    Total (testfsNextDirent d o) s (fun r t =>
      t = s ∧ r = some (e.toDirent,((o + e.size : ℕ) : ℤ))) := by
  refine Returns.total ?_ (testfsNextDirent_cons h.stands h.accounts hd.size_le hl)
  have hsize := hd.size_le
  obtain ⟨hbytes,hfit,hrest⟩ := hl
  have hstop := hrest.stop_eq
  have hsz : e.size = 8 + e.len := rfl
  have hlen := Entry.len_lt hfit
  have hlpos : 0 < e.len := Nat.succ_pos _
  refine Returns.bind (assertDir_returns h.stands hi hd.iType) ((assertDir_spec h.stands d).mono ?_)
  rintro _ t ⟨rfl,-⟩
  refine Returns.bind (inodeOf_returns h.stands hi) ((inodeOf_spec h.stands d).mono ?_)
  rintro inode t1 ⟨rfl,-,hv⟩
  refine Returns.ite (fun _ => Returns.pure _ t1) fun _ => ?_
  refine Returns.bind (testfsReadData_returns h hi hsize (n := 8) (by omega) (by omega)) ?_
  refine (testfsReadData_spec h.stands h.accounts hsize (n := 8) (by omega) (by omega)
    (by omega)).mono ?_
  rintro ⟨ret,b⟩ t2 ⟨rfl,hr⟩
  obtain ⟨rfl,rfl⟩ := Prod.mk.injEq .. ▸ hr
  refine Returns.ite (fun _ => Returns.pure _ t2) fun _ => ?_
  have hb8 : copyOut (contents v d) o 8 = e.bytes.take 8 := by
    rw [hsz,copyOut_split] at hbytes
    rw [← hbytes,List.take_left' (by simp)]
  have hnat : (BitVec.ofNat 32 e.len).toNat = e.len := by
    rw [BitVec.toNat_ofNat]
    omega
  refine Returns.bind (Returns.guard (length_copyOut ..) t2) (Wlp.guard_iff.mpr fun _ => ?_)
  rw [hb8,leValue_take_bytes]
  simp only [hnat]
  refine Returns.bind (Returns.guard ?_ t2) (Wlp.guard_iff.mpr fun _ => ?_)
  · rw [toInt_len hlen]
    exact_mod_cast hlpos
  have hm : (o + 8) % blockSize + e.len ≤ blockSize := by
    simp only [blockSize] at *
    omega
  have hrd := testfsReadData_returns h hi hsize (o := o + 8) (n := e.len) (by omega) hm
  rw [Nat.cast_add] at hrd
  refine Returns.bind hrd fun r t3 _ => ?_
  exact Returns.ite (fun _ => Returns.pure _ t3) fun _ => Returns.pure _ t3

/-- `testfs_next_dirent` at the end of the directory. -/
theorem testfsNextDirent_total_nil (h : Valid s c v) (hi : Held c d) (hd : IsDir v d es) :
    Total (testfsNextDirent d (v.inode d).iSize.toNat) s (fun r t => t = s ∧ r = none) := by
  refine Returns.total ?_ (testfsNextDirent_nil h.stands hd.size_le)
  refine Returns.bind (assertDir_returns h.stands hi hd.iType) ((assertDir_spec h.stands d).mono ?_)
  rintro _ t ⟨rfl,-⟩
  refine Returns.bind (inodeOf_returns h.stands hi) ((inodeOf_spec h.stands d).mono ?_)
  rintro inode t1 ⟨rfl,-,hv⟩
  rw [hv,toInt_iSize hd.size_le,if_pos le_rfl]
  exact Returns.pure _ t1

/-- The loop over the entries has a round for each of them and one more for the end. -/
theorem scanDirents_returns (h : Valid s c v) (hi : Held c d) (hd : IsDir v d es)
    {p : Dirent → Option Bool} {q : Entry → Bool} (hp : ∀ e : Entry, p e.toDirent = some (q e))
    {n : ℕ} {o : ℕ} {rest : List Entry} (hl : Laid (contents v d) o rest (v.inode d).iSize.toNat)
    (hn : rest.length < n) : Returns (scanDirents d p n o) s := by
  induction n generalizing o rest with
  | zero => omega
  | succ n ih =>
    cases rest with
    | nil =>
      obtain rfl : o = (v.inode d).iSize.toNat := hl
      refine Returns.bind (testfsNextDirent_total_nil h hi hd).returns ?_
      refine (testfsNextDirent_nil h.stands hd.size_le).mono ?_
      rintro r t ⟨rfl,rfl⟩
      exact Returns.pure _ t
    | cons e rest =>
      refine Returns.bind (testfsNextDirent_total_cons h hi hd hl).returns ?_
      refine (testfsNextDirent_cons h.stands h.accounts hd.size_le hl).mono ?_
      rintro r t ⟨rfl,rfl⟩
      refine Returns.bind (Returns.lift (hp e) t) (Wlp.lift_iff.mpr fun b _ => ?_)
      rw [List.length_cons] at hn
      exact Returns.ite (fun _ => Returns.pure _ t) fun _ => ih hl.2.2 (by omega)

theorem length_le_sizes (es : List Entry) : es.length ≤ sizes es := by
  induction es with
  | nil => exact Nat.zero_le _
  | cons e es ih =>
    have hpos := e.size_pos
    rw [List.length_cons,sizes_cons]
    omega

theorem scanDir_total (h : Valid s c v) (hi : Held c d) (hd : IsDir v d es)
    {p : Dirent → Option Bool} {q : Entry → Bool} (hp : ∀ e : Entry, p e.toDirent = some (q e)) :
    Total (scanDir d p) s (fun r t => t = s ∧
      r = ((firstEntry q es 0).1.map Entry.toDirent,((firstEntry q es 0).2 : ℤ))) := by
  refine Returns.total ?_ (scanDir_spec h.stands h.accounts hd hp)
  refine Returns.bind (inodeOf_returns h.stands hi) ((inodeOf_spec h.stands d).mono ?_)
  rintro inode t ⟨rfl,-,hv⟩
  have hstop := hd.laid.stop_eq
  have hle := length_le_sizes es
  refine scanDirents_returns h hi hd hp hd.laid ?_
  rw [hv]
  omega

theorem testfsDirNameToInodeNr_total (h : Valid s c v) (hi : Held c d) (hd : IsDir v d es)
    (name : CString) :
    Total (testfsDirNameToInodeNr d name) s (fun r t => t = s ∧ match lookup name es with
      | none => r = Errno.noent.ret
      | some e => r = e.nr.toInt) := by
  refine Returns.total ?_ (testfsDirNameToInodeNr_spec h.stands h.accounts hd name)
  refine Returns.bind (assertDir_returns h.stands hi hd.iType) ((assertDir_spec h.stands d).mono ?_)
  rintro _ t ⟨rfl,-⟩
  refine Returns.bind (scanDir_total h hi hd (isEntry_toDirent name)).returns ?_
  rintro ⟨r,o⟩ t1 -
  cases r with
  | none => exact Returns.pure _ t1
  | some e => exact Returns.pure _ t1

/-- `testfs_find_dirent` finds the first entry with an inode number. -/
theorem testfsFindDirent_total (h : Valid s c v) (hi : Held c d) (hd : IsDir v d es) (i : ℕ) :
    Total (testfsFindDirent d i) s (fun r t => t = s ∧
      r = (es.find? fun e => decide (e.nr.toInt = (i : ℤ))).map Entry.toDirent) := by
  have hp : ∀ e : Entry, some (decide (e.toDirent.dInodeNr.toInt = (i : ℤ))) =
      some (decide (e.nr.toInt = (i : ℤ))) := fun e => rfl
  have hret := assertDir_returns h.stands hi hd.iType
  refine Total.bind ((hret.total (assertDir_spec h.stands d)).mono ?_)
  rintro _ t ⟨rfl,-⟩
  refine Total.bind ((scanDir_total h hi hd hp).mono ?_)
  rintro r t1 ⟨rfl,rfl⟩
  rw [firstEntry_fst]
  exact Total.pure ⟨rfl,rfl⟩

end Directories

end FsReading
end OsLabs

import Mathlib.Data.BitVec
import Mathlib.Tactic
import OsLabs.Bytes
import OsLabs.Wlp
import OsLabs.FsModel
import OsLabs.DirModel
import OsLabs.FsVolume
import OsLabs.FsAccounts

/-!
# Entries of directories

The contents of a directory are a sequence of entries, one after the other and none across the
end of a block: `Laid`. The loops of `fs/dir.c` go through this sequence, a new entry takes the
place of a deleted one of the same length or is appended, and a deleted one stays with an invalid
inode number.
-/

namespace OsLabs
namespace Dirents

open Bytes FsModel DirModel FsVolume FsAccounts

/-! ## Layout -/

structure Entry where
  nr : BitVec 32
  name : CString
  deriving DecidableEq

namespace Entry

/-- The entry refers to an inode. -/
def live (e : Entry) : Bool := 0 ≤ e.nr.toInt

/-- `d_name_len`: the length of the name with its terminator. -/
def len (e : Entry) : ℕ := e.name.1.length + 1

def size (e : Entry) : ℕ := 8 + e.len

def bytes (e : Entry) : List Byte :=
  direntBytes (BitVec.ofNat 32 e.len) e.nr (CString.bytes e.name)

/-- What `testfs_next_dirent` makes of the entry. -/
def toDirent (e : Entry) : Dirent where
  dNameLen := BitVec.ofNat 32 e.len
  dInodeNr := e.nr
  dName := CString.bytes e.name

@[simp] theorem length_bytes (e : Entry) : e.bytes.length = e.size := by
  simp only [bytes,direntBytes,List.length_append,length_stored,CString.length_bytes,size,len]

theorem size_pos (e : Entry) : 0 < e.size := by
  simp only [size]
  omega

theorem live_toDirent (e : Entry) : e.toDirent.live = e.live := rfl

theorem hasName_toDirent (e : Entry) (name : CString) :
    e.toDirent.hasName name = some (decide (e.name = name)) := by
  simp only [Dirent.hasName,toDirent,toCString_bytes,Option.map_some]

end Entry

/-- The entries `es` lie in `m` from `o` to `stop`, none across the end of a block. -/
def Laid (m : Region) : ℕ → List Entry → ℕ → Prop
  | o, [], stop => o = stop
  | o, e::es, stop => copyOut m o e.size = e.bytes ∧ o % blockSize + e.size ≤ blockSize ∧
      Laid m (o + e.size) es stop

/-- The number of bytes of a sequence of entries. -/
def sizes (es : List Entry) : ℕ := (es.map Entry.size).sum

section Layout

variable {m m' : Region} {o stop : ℕ} {es : List Entry}

theorem sizes_cons (e : Entry) (es : List Entry) : sizes (e::es) = e.size + sizes es := by
  simp [sizes]

theorem sizes_append (es fs : List Entry) : sizes (es ++ fs) = sizes es + sizes fs := by
  simp [sizes]

theorem Laid.stop_eq (h : Laid m o es stop) : stop = o + sizes es := by
  induction es generalizing o with
  | nil =>
    simp only [Laid] at h
    simp [sizes,h]
  | cons e es ih =>
    rw [ih h.2.2,sizes_cons]
    omega

theorem Laid.congr (h : Laid m o es stop) (hm : ∀ k, o ≤ k → k < stop → m' k = m k) :
    Laid m' o es stop := by
  induction es generalizing o with
  | nil => exact h
  | cons e es ih =>
    have hstop := h.stop_eq
    rw [sizes_cons] at hstop
    refine ⟨?_,h.2.1,ih h.2.2 (fun k h1 h2 => hm k (by omega) h2)⟩
    rw [← h.1]
    exact copyOut_congr (fun k h1 h2 => hm k h1 (by omega))

theorem laid_append {fs : List Entry} :
    Laid m o (es ++ fs) stop ↔ Laid m o es (o + sizes es) ∧ Laid m (o + sizes es) fs stop := by
  induction es generalizing o with
  | nil => simp [Laid,sizes]
  | cons e es ih =>
    have hs : o + sizes (e::es) = o + e.size + sizes es := by
      rw [sizes_cons]
      omega
    rw [List.cons_append,Laid,Laid,hs,ih]
    constructor
    · rintro ⟨h1,h2,h3,h4⟩
      exact ⟨⟨h1,h2,h3⟩,h4⟩
    · rintro ⟨⟨h1,h2,h3⟩,h4⟩
      exact ⟨h1,h2,h3,h4⟩

theorem Laid.replace {pre post : List Entry} {x e : Entry} (h : Laid m o (pre ++ x::post) stop)
    (hsize : e.size = x.size) :
    Laid (copyIn m (o + sizes pre) e.bytes) o (pre ++ e::post) stop := by
  obtain ⟨h1,h2,h3,h4⟩ := laid_append.mp h
  refine laid_append.mpr ⟨h1.congr ?_,?_,by rw [hsize]; exact h3,?_⟩
  · intro k hk1 hk2
    exact copyIn_of_notMem m (by omega)
  · have hc := copyOut_copyIn m (o := o + sizes pre) (a := 0) (n := e.size) (l := e.bytes) (by simp)
    rw [Nat.add_zero] at hc
    rw [hc,List.drop_zero,List.take_of_length_le (by simp)]
  · rw [hsize]
    refine h4.congr ?_
    intro k hk1 hk2
    refine copyIn_of_notMem m ?_
    rw [Entry.length_bytes]
    omega

theorem Laid.snoc (h : Laid m o es stop) {e : Entry} (hfit : stop % blockSize + e.size ≤ blockSize) :
    Laid (copyIn m stop e.bytes) o (es ++ [e]) (stop + e.size) := by
  have hstop := h.stop_eq
  subst hstop
  refine laid_append.mpr ⟨h.congr ?_,?_,hfit,rfl⟩
  · intro k hk1 hk2
    exact copyIn_of_notMem m (by omega)
  · have hc := copyOut_copyIn m (o := o + sizes es) (a := 0) (n := e.size) (l := e.bytes) (by simp)
    rw [Nat.add_zero] at hc
    rw [hc,List.drop_zero,List.take_of_length_le (by simp)]

end Layout

/-- The first entry with a property, from an offset on, and its offset. -/
def firstEntry (p : Entry → Bool) : List Entry → ℕ → Option Entry × ℕ
  | [], o => (none,o)
  | e::es, o => if p e then (some e,o) else firstEntry p es (o + e.size)

theorem firstEntry_some {p : Entry → Bool} {es : List Entry} {o k : ℕ} {e : Entry}
    (h : firstEntry p es o = (some e,k)) :
    ∃ pre post, es = pre ++ e::post ∧ p e = true ∧ (∀ x ∈ pre, p x = false) ∧
      k = o + sizes pre := by
  induction es generalizing o with
  | nil => simp [firstEntry] at h
  | cons x xs ih =>
    rw [firstEntry] at h
    split at h
    · rename_i hx
      cases h
      exact ⟨[],xs,rfl,hx,by simp,by simp [sizes]⟩
    · rename_i hx
      obtain ⟨pre,post,rfl,h1,h2,h3⟩ := ih h
      refine ⟨x::pre,post,rfl,h1,?_,?_⟩
      · intro y hy
        rcases List.mem_cons.mp hy with rfl | hy
        · exact Bool.eq_false_iff.mpr hx
        · exact h2 y hy
      · rw [h3,sizes_cons]
        omega

theorem firstEntry_none {p : Entry → Bool} {es : List Entry} {o k : ℕ}
    (h : firstEntry p es o = (none,k)) : (∀ x ∈ es, p x = false) ∧ k = o + sizes es := by
  induction es generalizing o with
  | nil =>
    simp only [firstEntry,Prod.mk.injEq,true_and] at h
    exact ⟨by simp,by simp [sizes,h]⟩
  | cons x xs ih =>
    rw [firstEntry] at h
    split at h
    · simp at h
    · rename_i hx
      obtain ⟨h1,h2⟩ := ih h
      refine ⟨?_,?_⟩
      · intro y hy
        rcases List.mem_cons.mp hy with rfl | hy
        · exact Bool.eq_false_iff.mpr hx
        · exact h1 y hy
      · rw [h2,sizes_cons]
        omega

/-! ## Reading a directory -/

/-- The bytes of a file. -/
def contents (v : Volume) (i : ℕ) : Region :=
  fun o => logical v i (o/blockSize) (o % blockSize)

/-- The inode `d` is a directory with the entries `es`. -/
structure IsDir (v : Volume) (d : ℕ) (es : List Entry) : Prop where
  iType : (v.inode d).iType = InodeType.dir.code
  laid : Laid (contents v d) 0 es (v.inode d).iSize.toNat
  size_le : (v.inode d).iSize.toNat ≤ nrLogical*blockSize

/-- A number of the size of a file fits into the types of C. -/
theorem toInt32_natCast {k : ℕ} (hk : k < 2^31) : toInt32 k = k := by
  rw [toInt32]
  exact Int.bmod_eq_of_le (by omega) (by omega)

theorem toInt64_natCast {k : ℕ} (hk : k < 2^63) : toInt64 k = k := by
  rw [toInt64]
  exact Int.bmod_eq_of_le (by omega) (by omega)

theorem toSize_natCast {k : ℕ} (hk : k < 2^64) : toSize k = k := by
  rw [toSize]
  omega

theorem copyOut_contents (v : Volume) (i : ℕ) {o n : ℕ} (h : o % blockSize + n ≤ blockSize) :
    copyOut (logical v i (o/blockSize)) (o % blockSize) n = copyOut (contents v i) o n := by
  apply List.map_congr_left
  intro k hk
  have hk' : k < n := List.mem_range.mp hk
  simp only [blockSize] at *
  have hd : (o + k)/8192 = o/8192 := by omega
  have hm : (o + k) % 8192 = o % 8192 + k := by omega
  simp only [contents,hd,hm]

section Reading

variable {s : Testfs} {c : Memory} {v : Volume} {d : ℕ} {es : List Entry}

theorem toInt_iSize (h : (v.inode d).iSize.toNat ≤ nrLogical*blockSize) :
    (v.inode d).iSize.toInt = (v.inode d).iSize.toNat := by
  refine BitVec.toInt_eq_toNat_of_lt ?_
  simp only [nrLogical,blockSize] at h
  omega

theorem natCast_tdiv_blockSize (o : ℕ) : (o : ℤ).tdiv blockSize = (o/blockSize : ℕ) ∧
    (o : ℤ).tmod blockSize = (o % blockSize : ℕ) :=
  ⟨(Int.ofNat_tdiv ..).symm,(Int.ofNat_tmod ..).symm⟩

/-- The block and the offset in it do not overflow inside of a file. -/
theorem offset_arith {o : ℕ} (ho : o ≤ nrLogical*blockSize) :
    (o : ℤ).tdiv blockSize = (o/blockSize : ℕ) ∧ (o : ℤ).tmod blockSize = (o % blockSize : ℕ) ∧
      toInt32 (o/blockSize : ℕ) = (o/blockSize : ℕ) := by
  obtain ⟨hdiv,hmod⟩ := natCast_tdiv_blockSize o
  simp only [nrLogical,blockSize] at ho
  exact ⟨hdiv,hmod,toInt32_natCast (by simp only [blockSize]; omega)⟩

/-- The numbers of `testfs_read_data` do not overflow inside of a file. -/
theorem readData_arith {o n : ℕ} (hend : o + n ≤ nrLogical*blockSize)
    (hblock : o % blockSize + n ≤ blockSize) :
    toInt64 (o + toInt64 n) = (o + n : ℕ) ∧ (o : ℤ).tdiv blockSize = (o/blockSize : ℕ) ∧
      (o : ℤ).tmod blockSize = (o % blockSize : ℕ) ∧
      toSize ((o % blockSize : ℕ) + (n : ℤ)) = o % blockSize + n ∧
      toInt32 (o/blockSize : ℕ) = (o/blockSize : ℕ) := by
  obtain ⟨hdiv,hmod,hint⟩ := offset_arith (o := o) (by omega)
  simp only [nrLogical,blockSize] at hend hblock
  refine ⟨?_,hdiv,hmod,?_,hint⟩
  · rw [toInt64_natCast (by omega),← Nat.cast_add,toInt64_natCast (by omega)]
  · rw [← Nat.cast_add,toSize_natCast (by simp only [blockSize]; omega)]

/-- Reading inside of a file and inside of one block. -/
theorem testfsReadData_spec (hs : Stands s c v) (h : Accounts v (ref v))
    (hsize : (v.inode d).iSize.toNat ≤ nrLogical*blockSize) {o n : ℕ}
    (hend : o + n ≤ (v.inode d).iSize.toNat) (hpos : 0 < n)
    (hblock : o % blockSize + n ≤ blockSize) :
    Wlp (testfsReadData d o n) s (fun r t => t = s ∧ r = ((n : ℤ),copyOut (contents v d) o n)) := by
  have hi := toInt_iSize hsize
  obtain ⟨h1,h3,h4,h5,h6⟩ := readData_arith (o := o) (n := n) (hend.trans hsize) hblock
  simp only [nrLogical,blockSize] at hsize hblock
  rw [testfsReadData,Wlp.bind_iff]
  refine (inodeOf_spec hs d).mono ?_
  rintro inode t ⟨rfl,-,hv⟩
  have h2 : ¬(v.inode d).iSize.toInt < ((o + n : ℕ) : ℤ) := by
    rw [hi]
    exact_mod_cast Nat.not_lt.mpr hend
  simp only [hv]
  rw [h1,if_neg h2,h3,h4,h5,h6,if_neg (by simp only [blockSize]; omega),Wlp.bind_iff]
  refine (testfsReadBlock_spec hs h d _).mono ?_
  rw [Int.toNat_natCast]
  rintro ⟨r,block⟩ t1 ⟨rfl,-,⟨hbig,-⟩ | ⟨-,hr,hb⟩⟩
  · simp only [nrLogical,blockSize] at hbig
    omega
  · simp only at hr hb ⊢
    subst hr hb
    rw [if_neg (by omega),Wlp.bind_iff,Wlp.guard_iff,Int.toNat_natCast]
    intro _
    refine Wlp.pure_iff.mpr ⟨rfl,?_⟩
    rw [copyOut_contents v d hblock]

theorem Entry.len_lt {e : Entry} {o : ℕ} (h : o % blockSize + e.size ≤ blockSize) :
    e.len < 2^13 := by
  simp only [Entry.size,blockSize] at h
  omega

theorem leValue_take_bytes (e : Entry) :
    BitVec.ofNat 32 (leValue ((e.bytes.take 8).take 4)) = BitVec.ofNat 32 e.len := by
  have h : (e.bytes.take 8).take 4 = stored (BitVec.ofNat 32 e.len) := by
    rw [List.take_take,Entry.bytes,direntBytes,List.append_assoc]
    exact List.take_left' (length_stored _)
  rw [h,ofNat_leValue_stored (by norm_num)]

theorem leValue_drop_bytes (e : Entry) :
    BitVec.ofNat 32 (leValue ((e.bytes.take 8).drop 4)) = e.nr := by
  have h : (e.bytes.take 8).drop 4 = stored e.nr := by
    rw [Entry.bytes,direntBytes,List.take_left' (by simp)]
    exact List.drop_left' (length_stored _)
  rw [h,ofNat_leValue_stored (by norm_num)]

theorem drop_bytes (e : Entry) : e.bytes.drop 8 = CString.bytes e.name := by
  rw [Entry.bytes,direntBytes]
  exact List.drop_left' (by simp)

theorem copyOut_split (m : Region) {o a n : ℕ} :
    copyOut m o (a + n) = copyOut m o a ++ copyOut m (o + a) n := by
  rw [copyOut,List.range_add,List.map_append,List.map_map,copyOut,copyOut]
  congr 1
  apply List.map_congr_left
  intro k _
  simp only [Function.comp_apply,Nat.add_assoc]

theorem testfsNextDirent_cons (hs : Stands s c v) (h : Accounts v (ref v))
    (hsize : (v.inode d).iSize.toNat ≤ nrLogical*blockSize) {o : ℕ} {e : Entry}
    (hl : Laid (contents v d) o (e::es) (v.inode d).iSize.toNat) :
    Wlp (testfsNextDirent d o) s (fun r t =>
      t = s ∧ r = some (e.toDirent,((o + e.size : ℕ) : ℤ))) := by
  obtain ⟨hbytes,hfit,hrest⟩ := hl
  have hstop := hrest.stop_eq
  have hlen := Entry.len_lt hfit
  have hpos := e.size_pos
  have hsz : e.size = 8 + e.len := rfl
  have hlpos : 0 < e.len := by
    rw [Entry.len]
    omega
  rw [hsz,copyOut_split] at hbytes
  have hb8 : copyOut (contents v d) o 8 = e.bytes.take 8 := by
    rw [← hbytes,List.take_left' (by simp)]
  have hbn : copyOut (contents v d) (o + 8) e.len = CString.bytes e.name := by
    rw [← drop_bytes,← hbytes,List.drop_left' (by simp)]
  simp only [testfsNextDirent,assertDir,Wlp.bind_iff]
  refine (inodeOf_spec hs d).mono ?_
  rintro inode t ⟨rfl,-,hv⟩
  rw [Wlp.guard_iff]
  intro _
  refine (inodeOf_spec hs d).mono ?_
  rintro inode t1 ⟨rfl,-,hv⟩
  rw [hv,toInt_iSize hsize,if_neg (by omega),Wlp.bind_iff]
  have hm : (o + 8) % blockSize + e.len ≤ blockSize := by
    simp only [blockSize] at *
    omega
  refine (testfsReadData_spec hs h hsize (n := 8) (by omega) (by omega) (by omega)).mono ?_
  rintro ⟨ret,b⟩ t2 ⟨rfl,hr⟩
  obtain ⟨rfl,rfl⟩ := Prod.mk.injEq .. ▸ hr
  have hnat : (BitVec.ofNat 32 e.len).toNat = e.len := by
    rw [BitVec.toNat_ofNat]
    omega
  simp only
  rw [if_neg (by norm_num),Wlp.bind_iff,Wlp.guard_iff]
  intro _
  rw [hb8,leValue_take_bytes,leValue_drop_bytes,hnat,Wlp.bind_iff,Wlp.guard_iff]
  intro _
  rw [Wlp.bind_iff]
  have hrd := testfsReadData_spec hs h hsize (o := o + 8) (n := e.len) (by omega) hlpos hm
  rw [Nat.cast_add] at hrd
  refine hrd.mono ?_
  rintro ⟨ret,b⟩ t3 ⟨rfl,hr⟩
  obtain ⟨rfl,rfl⟩ := Prod.mk.injEq .. ▸ hr
  simp only
  rw [if_neg (by omega),Wlp.pure_iff,hbn]
  refine ⟨rfl,?_⟩
  rw [hsz,Entry.toDirent]
  push_cast
  rw [add_assoc]

/-- `testfs_next_dirent` at the end of the directory. -/
theorem testfsNextDirent_nil (hs : Stands s c v)
    (hsize : (v.inode d).iSize.toNat ≤ nrLogical*blockSize) :
    Wlp (testfsNextDirent d (v.inode d).iSize.toNat) s (fun r t => t = s ∧ r = none) := by
  simp only [testfsNextDirent,assertDir,Wlp.bind_iff]
  refine (inodeOf_spec hs d).mono ?_
  rintro inode t ⟨rfl,-,-⟩
  rw [Wlp.guard_iff]
  intro _
  refine (inodeOf_spec hs d).mono ?_
  rintro inode t1 ⟨rfl,-,hv⟩
  rw [hv,toInt_iSize hsize,if_pos le_rfl]
  exact Wlp.pure_iff.mpr ⟨rfl,rfl⟩

/-- The loop over the entries stops at the first entry with the property, or at the end. -/
theorem scanDirents_spec (hs : Stands s c v) (h : Accounts v (ref v))
    (hsize : (v.inode d).iSize.toNat ≤ nrLogical*blockSize)
    {p : Dirent → Option Bool} {q : Entry → Bool} (hp : ∀ e : Entry, p e.toDirent = some (q e))
    (n : ℕ) {o : ℕ} (hl : Laid (contents v d) o es (v.inode d).iSize.toNat) :
    Wlp (scanDirents d p n o) s (fun r t => t = s ∧
      r = ((firstEntry q es o).1.map Entry.toDirent,((firstEntry q es o).2 : ℤ))) := by
  induction n generalizing o es with
  | zero => exact Wlp.of_failure
  | succ n ih =>
    rw [scanDirents,Wlp.bind_iff]
    cases es with
    | nil =>
      obtain rfl : o = (v.inode d).iSize.toNat := hl
      refine (testfsNextDirent_nil hs hsize).mono ?_
      rintro r t ⟨rfl,rfl⟩
      exact Wlp.pure_iff.mpr ⟨rfl,rfl⟩
    | cons e es =>
      refine (testfsNextDirent_cons hs h hsize hl).mono ?_
      rintro r t ⟨rfl,rfl⟩
      simp only [Wlp.bind_iff,Wlp.lift_iff]
      intro b hb
      obtain rfl : q e = b := by simpa [hp e] using hb
      rw [firstEntry]
      cases hq : q e with
      | true =>
        rw [if_pos rfl,if_pos rfl,Wlp.pure_iff]
        exact ⟨rfl,rfl⟩
      | false =>
        rw [if_neg (by simp),if_neg (by simp)]
        exact ih hl.2.2

theorem scanDir_spec (hs : Stands s c v) (h : Accounts v (ref v)) (hd : IsDir v d es)
    {p : Dirent → Option Bool} {q : Entry → Bool} (hp : ∀ e : Entry, p e.toDirent = some (q e)) :
    Wlp (scanDir d p) s (fun r t => t = s ∧
      r = ((firstEntry q es 0).1.map Entry.toDirent,((firstEntry q es 0).2 : ℤ))) := by
  rw [scanDir,Wlp.bind_iff]
  refine (inodeOf_spec hs d).mono ?_
  rintro inode t ⟨rfl,-,-⟩
  exact scanDirents_spec hs h hd.size_le hp _ hd.laid

end Reading

/-! ## Looking up, adding and deleting -/

/-- The entry is live and has the name. -/
def Entry.isNamed (name : CString) (e : Entry) : Bool := e.live && decide (e.name = name)

/-- The live entry with a name. -/
def lookup (name : CString) (es : List Entry) : Option Entry := es.find? (Entry.isNamed name)

/-- A new entry takes the place of the first deleted one of its length, or goes to the end. -/
def addEntry (e : Entry) : List Entry → List Entry
  | [] => [e]
  | x::xs => if x.live = false ∧ x.len = e.len then e::xs else x::addEntry e xs

/-- The first live entry with the name is deleted. -/
def killEntry (name : CString) : List Entry → List Entry
  | [] => []
  | x::xs => if Entry.isNamed name x then { x with nr := invalidInodeNr }::xs
    else x::killEntry name xs

theorem addEntry_replace {e x : Entry} {pre post : List Entry} (hx : x.live = false)
    (hlen : x.len = e.len) (hpre : ∀ y ∈ pre, ¬(y.live = false ∧ y.len = e.len)) :
    addEntry e (pre ++ x::post) = pre ++ e::post := by
  induction pre with
  | nil => simp [addEntry,hx,hlen]
  | cons y ys ih =>
    rw [List.cons_append,addEntry,if_neg (hpre y (by simp)),
      ih (fun z hz => hpre z (by simp [hz])),List.cons_append]

theorem addEntry_append {e : Entry} {es : List Entry}
    (hes : ∀ y ∈ es, ¬(y.live = false ∧ y.len = e.len)) : addEntry e es = es ++ [e] := by
  induction es with
  | nil => rfl
  | cons y ys ih =>
    rw [addEntry,if_neg (hes y (by simp)),ih (fun z hz => hes z (by simp [hz])),List.cons_append]

theorem killEntry_append {name : CString} {x : Entry} {pre post : List Entry}
    (hx : Entry.isNamed name x = true) (hpre : ∀ y ∈ pre, Entry.isNamed name y = false) :
    killEntry name (pre ++ x::post) = pre ++ { x with nr := invalidInodeNr }::post := by
  induction pre with
  | nil => simp [killEntry,hx]
  | cons y ys ih =>
    rw [List.cons_append,killEntry,if_neg (by simp [hpre y]),
      ih (fun z hz => hpre z (by simp [hz])),List.cons_append]

theorem firstEntry_fst (p : Entry → Bool) (es : List Entry) (o : ℕ) :
    (firstEntry p es o).1 = es.find? p := by
  induction es generalizing o with
  | nil => rfl
  | cons e es ih =>
    rw [firstEntry,List.find?_cons]
    cases p e with
    | true => rfl
    | false => exact ih _

section Changing

variable {s : Testfs} {c : Memory} {v : Volume} {d : ℕ} {es : List Entry}

theorem isEntry_toDirent (name : CString) (e : Entry) :
    isEntry name e.toDirent = some (Entry.isNamed name e) := by
  rw [isEntry,Entry.live_toDirent,Entry.hasName_toDirent,Entry.isNamed]
  cases e.live <;> simp

theorem assertDir_spec (hs : Stands s c v) (d : ℕ) :
    Wlp (assertDir d) s (fun _ t => t = s ∧ (v.inode d).iType = InodeType.dir.code) := by
  rw [assertDir,Wlp.bind_iff]
  refine (inodeOf_spec hs d).mono ?_
  rintro inode t ⟨rfl,-,hv⟩
  rw [Wlp.guard_iff,hv]
  exact fun ht => ⟨rfl,ht⟩

/-- `testfs_dir_name_to_inode_nr` finds the live entry with the name. -/
theorem testfsDirNameToInodeNr_spec (hs : Stands s c v) (h : Accounts v (ref v))
    (hd : IsDir v d es) (name : CString) :
    Wlp (testfsDirNameToInodeNr d name) s (fun r t => t = s ∧ match lookup name es with
      | none => r = Errno.noent.ret
      | some e => r = e.nr.toInt) := by
  rw [testfsDirNameToInodeNr,Wlp.bind_iff]
  refine (assertDir_spec hs d).mono ?_
  rintro _ t ⟨rfl,-⟩
  rw [Wlp.bind_iff]
  refine (scanDir_spec hs h hd (isEntry_toDirent name)).mono ?_
  rintro r t1 ⟨rfl,rfl⟩
  rw [firstEntry_fst,lookup]
  cases es.find? (Entry.isNamed name) with
  | none => exact Wlp.pure_iff.mpr ⟨rfl,rfl⟩
  | some e => exact Wlp.pure_iff.mpr ⟨rfl,rfl⟩

theorem Written.contents_eq {n o : ℕ} {buf : List Byte} {start : ℤ} {w : Volume}
    (hw : Written d n o buf start v w) :
    contents w d = copyIn (contents v d) (n*blockSize + o) buf := by
  have ho := hw.offset_le
  funext k
  simp only [contents,hw.logical]
  simp only [blockSize] at ho ⊢
  by_cases hk : k/8192 = n
  · rw [hk,Function.update_self]
    by_cases hin : o ≤ k % 8192 ∧ k % 8192 < o + buf.length
    · rw [copyIn_of_mem _ hin.1 hin.2,copyIn_of_mem _ (by omega) (by omega)]
      congr 1
      omega
    · rw [copyIn_of_notMem _ hin,copyIn_of_notMem _ (by omega),← hk]
      rfl
  · rw [Function.update_of_ne hk,copyIn_of_notMem _ (by omega)]
    rfl

/-- An entry is written where its bytes fit, at an offset that is at most the size. -/
theorem writeEntry_spec (hm : d ∈ c.dirty) (hs : Stands s c v) (h : Accounts v (ref v)) (hd : IsDir v d es)
    (e : Entry) {o : ℕ} (ho : o ≤ (v.inode d).iSize.toNat) :
    Wlp (testfsWriteData d e.bytes o) s (fun r t =>
      (r < 0 ∧ Stands t c v ∧ (blockSize < o % blockSize + e.size ∨
        nrDirectBlocks*blockSize ≤ o ∨ (Full v ∧ ref v d (slotOf (o/blockSize)) = 0))) ∨
      ∃ w, 0 ≤ r ∧ Stands t c w ∧ Accounts w (ref w) ∧ Frame d v w ∧
        (w.inode d).iType = InodeType.dir.code ∧ contents w d = copyIn (contents v d) o e.bytes ∧
        (w.inode d).iSize.toNat = max (v.inode d).iSize.toNat (o + e.size) ∧
        (w.inode d).iSize.toNat ≤ nrLogical*blockSize ∧
        o % blockSize + e.size ≤ blockSize ∧ ∀ l, Within t d v w l) := by
  have hsize := hd.size_le
  have hi := toInt_iSize hsize
  obtain ⟨h3,h4,h6⟩ := offset_arith (ho.trans hsize)
  simp only [nrLogical,blockSize] at hsize
  refine (testfsWriteData_spec hm hs h e.bytes o).mono ?_
  rw [h3,h4,h6,Int.toNat_natCast,Int.toNat_natCast,Entry.length_bytes]
  rintro r t (⟨hr,ht,hreason⟩ | ⟨w,rfl,ht,-,-,hw,hin⟩)
  · refine Or.inl ⟨hr,ht,?_⟩
    rcases hreason with hbig | hlog | hfull
    · left
      by_contra hcon
      have hle : o % blockSize + e.size ≤ blockSize := Nat.not_lt.mp hcon
      simp only [blockSize] at hle hbig
      rw [← Nat.cast_add,toSize_natCast (by omega)] at hbig
      omega
    · right; left
      simp only [nrDirectBlocks,blockSize] at *
      omega
    · exact Or.inr (Or.inr hfull)
  · have hfit := hw.offset_le
    have hlog := hw.block_lt
    have hpos := e.size_pos
    rw [Entry.length_bytes] at hfit
    simp only [blockSize,nrLogical] at hfit hlog
    have hnew : (w.inode d).iSize.toNat = max (v.inode d).iSize.toNat (o + e.size) := by
      rw [hw.iSize,Entry.length_bytes,if_pos hpos,hi,← Nat.cast_add,toInt64_natCast (by omega),
        ← Nat.cast_max,BitVec.ofInt_natCast,BitVec.toNat_ofNat]
      omega
    refine Or.inr ⟨w,by omega,ht,hw.accounts,hw.frame,hw.iType.trans hd.iType,?_,hnew,?_,hfit,hin⟩
    · have hc := Written.contents_eq hw
      have he : o/blockSize*blockSize + o % blockSize = o := by
        simp only [blockSize]
        omega
      rwa [he] at hc
    · rw [hnew]
      simp only [nrLogical,blockSize]
      omega

end Changing

end Dirents
end OsLabs

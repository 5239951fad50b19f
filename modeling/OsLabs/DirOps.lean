import Mathlib.Data.BitVec
import Mathlib.Tactic
import OsLabs.Bytes
import OsLabs.Wlp
import OsLabs.FsModel
import OsLabs.DirModel
import OsLabs.FsVolume
import OsLabs.FsAccounts
import OsLabs.FsRemoval
import OsLabs.Dirents
import OsLabs.DirMap

/-!
# Operations on directories

A mounted file system is `Valid` when it stands for a volume whose accounts are in order and whose
blocks are on the device. The operations of `fs/dir.c` keep this. They either fail and leave the
volume as it was, or have exactly one effect on the entries of one directory; the states in which a
creation is undone are hidden behind the specification of `testfs_create_file_or_dir`.
-/

namespace OsLabs
namespace DirOps

open Bytes FsModel DirModel FsVolume FsAccounts FsRemoval Dirents DirMap

/-- The blocks that inodes refer to are among the first `n` ones. -/
def Backed (n : ℕ) (v : Volume) : Prop := ∀ i l, ref v i l ≠ 0 → ref v i l < n

structure Valid (s : Testfs) (c : Memory) (v : Volume) : Prop where
  stands : Stands s c v
  accounts : Accounts v (ref v)
  backed : Backed s.dev.size v

section Inodes

variable {s t : Testfs} {c c' : Memory} {v w : Volume} {i : ℕ}

/-- A step that grows the device at most and refers to old blocks or to blocks on the device. -/
theorem Valid.step (h : Valid s c v) (hsize : c'.size = c.size)
    (ht : Stands t (c'.resize s.dev.size) w) (ha : Accounts w (ref w))
    (hin : ∀ j l, ref w j l ≠ 0 → ref w j l = ref v j l ∨ ref w j l < t.dev.size) :
    Valid t c' w := by
  have hle : s.dev.size ≤ t.dev.size := ht.memory.size_le
  refine ⟨ht.mono rfl ?_ rfl (le_refl _),ha,fun j l h0 => ?_⟩
  · rw [hsize]
    exact h.stands.memory.size_le
  · rcases hin j l h0 with he | hlt
    · rw [he] at h0 ⊢
      exact lt_of_lt_of_le (h.backed j l h0) hle
    · exact hlt

/-- A step without an effect on the volume. -/
theorem Valid.same (h : Valid s c v) (hsize : c'.size = c.size)
    (ht : Stands t (c'.resize s.dev.size) v) : Valid t c' v :=
  h.step hsize ht h.accounts fun _ _ _ => Or.inl rfl

theorem Valid.mono (h : Valid s c v) (hcur : c'.curDir = c.curDir) (hsize : c'.size ≤ c.size)
    (hcount : c'.count = c.count) (hd : c.dirty ⊆ c'.dirty) : Valid s c' v :=
  ⟨h.stands.mono hcur hsize hcount hd,h.accounts,h.backed⟩

theorem Valid.touch (h : Valid s c v) (i : ℕ) : Valid s (c.touch i) v :=
  ⟨h.stands.touch i,h.accounts,h.backed⟩

/-- The inode `i` is rewritten within the frame of a change of it. -/
theorem Valid.write (h : Valid s c v) (hsize : c'.size = c.size)
    (ht : Stands t (c'.resize s.dev.size) w) (ha : Accounts w (ref w)) (hf : Frame i v w)
    (hin : ∀ l, Within t i v w l) : Valid t c' w := by
  refine h.step hsize ht ha fun j l h0 => ?_
  by_cases hj : j = i
  · subst hj
    exact hin l h0
  · exact Or.inl (congrFun (hf.ref j hj) l)

theorem release_hold (hc : c.Counted) (i : ℕ) : (c.hold i).release i = c.clean i := by
  simp only [Memory.release,Memory.hold,Memory.clean,Function.update_self,Function.update_idem,
    Option.bind_some]
  cases hk : c.count i with
  | none =>
    simp only [Option.getD_none,Int.zero_add,Int.sub_self,if_pos]
    rw [← hk,Function.update_eq_self]
  | some k =>
    have hpos := hc i k hk
    simp only [Option.getD_some,Int.add_sub_cancel,if_neg (ne_of_gt hpos)]
    rw [← hk,Function.update_eq_self]

theorem testfsGetInode_valid (h : Valid s c v) (i : ℕ) :
    Wlp (testfsGetInode i) s (fun _ t => Valid t (c.hold i) v) :=
  (testfsGetInode_spec (h.stands.resize le_rfl) i).mono fun _ _ ht => h.same rfl ht

theorem testfsPutInode_valid (h : Valid s c v) (i : ℕ) :
    Wlp (testfsPutInode i) s (fun _ t => Valid t (c.release i) v) :=
  (testfsPutInode_spec (h.stands.resize le_rfl) i).mono fun _ _ ht => h.same rfl ht

theorem testfsSyncInode_valid (h : Valid s c v) (i : ℕ) :
    Wlp (testfsSyncInode i) s (fun _ t => Valid t (c.clean i) (v.sync i)) := by
  refine (testfsSyncInode_spec (h.stands.resize le_rfl) i).mono fun _ t ht => ?_
  refine h.step rfl ht ?_ fun _ _ _ => Or.inl rfl
  exact h.accounts.congr rfl rfl rfl (fun _ => rfl) h.accounts.free

theorem testfsRemoveInode_valid (hm : i ∈ c.dirty) (h : Valid s c v) :
    Wlp (testfsRemoveInode i) s (fun _ t => ∃ w, Valid t (c.release i) w ∧ Removed i v w) := by
  refine (testfsRemoveInode_spec (c := c.resize s.dev.size) hm (h.stands.resize le_rfl) h.accounts).mono ?_
  rintro _ t ⟨w,hw,hr⟩
  refine ⟨w,h.step rfl hw hr.accounts fun j l h0 => ?_,hr⟩
  by_cases hj : j = i
  · subst hj
    exact absurd (hr.ref_self l) h0
  · exact Or.inl (congrFun (hr.ref j hj) l)

/-- A change that keeps blocks and block numbers keeps references and contents. -/
theorem ref_congr (hb : w.block = v.block) (h1 : ∀ j, (w.inode j).iBlockNr = (v.inode j).iBlockNr)
    (h2 : ∀ j, (w.inode j).iIndirect = (v.inode j).iIndirect) :
    ref w = ref v ∧ logical w = logical v := by
  have hr : ref w = ref v := by
    funext j l
    cases l <;> simp only [ref,hb,h1,h2]
  exact ⟨hr,by funext j n; simp only [logical,hr,hb]⟩

/-- The inode is marked and has a type; nothing else has changed. -/
structure Opened (i : ℕ) (type : InodeType) (v w : Volume) : Prop where
  lt : i < nrInodes
  unused : v.inodeUsed i = false
  least : ∀ j < i, v.inodeUsed j = true
  self : w.inode i = { v.inode i with iType := type.code }
  inode : ∀ j, j ≠ i → w.inode j = v.inode j
  ref : ref w = ref v
  logical : logical w = logical v
  disk : w.disk = v.disk
  inodeUsed : w.inodeUsed = Function.update v.inodeUsed i true
  usedInodes : w.usedInodes = v.usedInodes + 1
  maxBlocks : w.maxBlocks = v.maxBlocks

theorem testfsCreateInode_valid (h : Valid s c v) (type : InodeType) :
    Wlp (testfsCreateInode type) s (fun r t => match r with
      | none => Valid t c v ∧ ∀ k < nrInodes, v.inodeUsed k = true
      | some i => ∃ w, Valid t ((c.touch i).hold i) w ∧ Opened i type v w) := by
  refine (testfsCreateInode_spec (h.stands.resize le_rfl) type).mono ?_
  intro r t ht
  cases r with
  | none => exact ⟨h.same rfl ht.1,ht.2⟩
  | some i =>
    obtain ⟨hi,hu,hleast,ht⟩ := ht
    have hother : ∀ j, j ≠ i → ((v.takeInode i).setInode i
        { v.inode i with iType := type.code }).inode j = v.inode j :=
      fun j hj => Volume.setInode_inode_of_ne _ _ _ hj
    have hfields : ∀ j, (((v.takeInode i).setInode i
        { v.inode i with iType := type.code }).inode j).iBlockNr = (v.inode j).iBlockNr ∧
        (((v.takeInode i).setInode i
        { v.inode i with iType := type.code }).inode j).iIndirect = (v.inode j).iIndirect ∧
        (((v.takeInode i).setInode i
        { v.inode i with iType := type.code }).inode j).blockCount = (v.inode j).blockCount := by
      intro j
      by_cases hj : j = i
      · subst hj
        rw [Volume.setInode_inode_self]
        exact ⟨rfl,rfl,rfl⟩
      · rw [hother j hj]
        exact ⟨rfl,rfl,rfl⟩
    obtain ⟨hr,hl⟩ := ref_congr (v := v) (w := (v.takeInode i).setInode i
      { v.inode i with iType := type.code }) rfl (fun j => (hfields j).1) fun j => (hfields j).2.1
    refine ⟨_,h.step rfl ht ?_ fun j l _ => Or.inl (congrFun (congrFun hr j) l),
      hi,hu,hleast,Volume.setInode_inode_self ..,hother,hr,hl,rfl,rfl,rfl,rfl⟩
    rw [hr]
    exact h.accounts.congr rfl rfl rfl (fun j => (hfields j).2.2) h.accounts.free

end Inodes

section Entries

variable {s : Testfs} {c : Memory} {v : Volume} {d : ℕ} {es : List Entry} {name : CString}

/-- The directory `d` has the entries `es`, and nothing else has changed. -/
structure Rewritten (d : ℕ) (es : List Entry) (v w : Volume) : Prop where
  frame : Frame d v w
  isDir : IsDir w d es

/-- There may be no room for an entry at the offset `o`. -/
def Cramped (v : Volume) (d o : ℕ) (e : Entry) : Prop :=
  blockSize < o % blockSize + e.size ∨ nrDirectBlocks*blockSize ≤ o ∨
    (Full v ∧ ref v d (slotOf (o/blockSize)) = 0)

theorem writeEntry_valid (hm : d ∈ c.dirty) (h : Valid s c v) (hd : IsDir v d es) (e : Entry)
    {o : ℕ} (ho : o ≤ (v.inode d).iSize.toNat) :
    Wlp (testfsWriteData d e.bytes o) s (fun r t =>
      (r < 0 ∧ Valid t c v ∧ Cramped v d o e) ∨
      ∃ w, 0 ≤ r ∧ Valid t c w ∧ Frame d v w ∧ (w.inode d).iType = InodeType.dir.code ∧
        contents w d = copyIn (contents v d) o e.bytes ∧
        (w.inode d).iSize.toNat = max (v.inode d).iSize.toNat (o + e.size) ∧
        (w.inode d).iSize.toNat ≤ nrLogical*blockSize ∧
        o % blockSize + e.size ≤ blockSize) := by
  refine (writeEntry_spec (c := c.resize s.dev.size) hm (h.stands.resize le_rfl) h.accounts hd e
    ho).mono ?_
  rintro r t (⟨hr,ht,hwhy⟩ | ⟨w,hr,ht,ha,hf,htype,hcont,hsize,hle,hfit,hin⟩)
  · exact Or.inl ⟨hr,h.same rfl ht,hwhy⟩
  · exact Or.inr ⟨w,hr,h.write rfl ht ha hf hin,hf,htype,hcont,hsize,hle,hfit⟩

/-- An entry takes the place of one of the same size. -/
theorem replaceEntry_spec (hm : d ∈ c.dirty) (h : Valid s c v) {pre post : List Entry} {x e : Entry}
    (hd : IsDir v d (pre ++ x::post)) (hsize : e.size = x.size) :
    Wlp (testfsWriteData d e.bytes (sizes pre)) s (fun r t =>
      (r < 0 ∧ Valid t c v ∧ Cramped v d (sizes pre) e) ∨
      ∃ w, 0 ≤ r ∧ Valid t c w ∧ Rewritten d (pre ++ e::post) v w) := by
  have hstop := hd.laid.stop_eq
  rw [sizes_append,sizes_cons] at hstop
  refine (writeEntry_valid hm h hd e (o := sizes pre) (by omega)).mono ?_
  rintro r t (hfail | ⟨w,hr,hw,hf,htype,hcont,hsz,hle,-⟩)
  · exact Or.inl hfail
  · have hmax : (w.inode d).iSize.toNat = (v.inode d).iSize.toNat := by
      rw [hsz,hsize]
      omega
    refine Or.inr ⟨w,hr,hw,hf,htype,?_,hle⟩
    have hl := hd.laid.replace hsize
    rw [Nat.zero_add] at hl
    rw [hcont,hmax]
    exact hl

/-- An entry is added after the last one. -/
theorem appendEntry_spec (hm : d ∈ c.dirty) (h : Valid s c v) (hd : IsDir v d es) (e : Entry) :
    Wlp (testfsWriteData d e.bytes (sizes es)) s (fun r t =>
      (r < 0 ∧ Valid t c v ∧ Cramped v d (sizes es) e) ∨
      ∃ w, 0 ≤ r ∧ Valid t c w ∧ Rewritten d (es ++ [e]) v w) := by
  have hstop := hd.laid.stop_eq
  rw [Nat.zero_add] at hstop
  refine (writeEntry_valid hm h hd e (o := sizes es) (by omega)).mono ?_
  rintro r t (hfail | ⟨w,hr,hw,hf,htype,hcont,hsz,hle,hfit⟩)
  · exact Or.inl hfail
  · have hmax : (w.inode d).iSize.toNat = sizes es + e.size := by
      rw [hsz]
      omega
    refine Or.inr ⟨w,hr,hw,hf,htype,?_,hle⟩
    have hl := hd.laid
    rw [hstop] at hl
    rw [hcont,hmax]
    exact hl.snoc hfit

theorem len_lt_of_laid {m : Region} {o stop : ℕ} (h : Laid m o es stop) {e : Entry} (he : e ∈ es) :
    e.len < 2^13 := by
  induction es generalizing o with
  | nil => cases he
  | cons x xs ih =>
    rcases List.mem_cons.mp he with rfl | he
    · exact Entry.len_lt h.2.1
    · exact ih h.2.2 he

theorem toInt_len {e : Entry} (he : e.len < 2^13) : (BitVec.ofNat 32 e.len).toInt = e.len := by
  rw [BitVec.toInt_eq_toNat_of_lt (by rw [BitVec.toNat_ofNat]; omega),BitVec.toNat_ofNat]
  omega

/-- The entry at which `testfs_add_dirent` stops. -/
def stopsAt (name : CString) (len : ℤ) (e : Entry) : Bool :=
  if e.live then decide (e.name = name) else decide ((BitVec.ofNat 32 e.len).toInt = len)

theorem stopsAdd_toDirent (name : CString) (len : ℤ) (e : Entry) :
    stopsAdd name len e.toDirent = some (stopsAt name len e) := by
  rw [stopsAdd,Entry.live_toDirent,Entry.hasName_toDirent,stopsAt]
  cases e.live <;> rfl

/-- The offset at which `testfs_add_dirent` writes an entry with the name. -/
def place (name : CString) (es : List Entry) : ℕ :=
  (firstEntry (stopsAt name (toInt32 (name.1.length + 1))) es 0).2

theorem place_le (name : CString) (es : List Entry) : place name es ≤ sizes es := by
  rw [place]
  cases hf : firstEntry (stopsAt name (toInt32 (name.1.length + 1))) es 0 with
  | mk f k =>
  cases f with
  | some x =>
    obtain ⟨pre,post,rfl,-,-,hk⟩ := firstEntry_some hf
    simp only [hk,sizes_append]
    omega
  | none => exact ((firstEntry_none hf).2.trans (Nat.zero_add _)).le

/-- The length of the name fits into the type of C, or there is no memory for the entry. -/
theorem testfsWriteDirent_spec {o : ℤ} {nr : ℕ} {Q : ℤ → Testfs → Prop}
    (hfail : 2^31 ≤ name.1.length + 1 → Q Errno.nomem.ret s)
    (hwrite : toInt32 (name.1.length + 1) = name.1.length + 1 →
      Wlp (testfsWriteData d (Entry.bytes ⟨BitVec.ofNat 32 nr,name⟩) o) s Q) :
    Wlp (testfsWriteDirent d name (toInt32 (name.1.length + 1)) nr o) s Q := by
  rw [testfsWriteDirent,Wlp.ite_iff]
  constructor
  · intro hbig
    refine Wlp.pure_iff.mpr (hfail ?_)
    by_contra hshort
    have hlen : toInt32 (name.1.length + 1 : ℕ) = (name.1.length + 1 : ℕ) :=
      toInt32_natCast (by omega)
    rw [Nat.cast_succ] at hlen
    rw [hlen,toSize] at hbig
    omega
  · intro _
    rw [Wlp.bind_iff,Wlp.guard_iff]
    intro hlen
    have he : BitVec.ofInt 32 (name.1.length + 1) =
        BitVec.ofNat 32 (Entry.len ⟨BitVec.ofNat 32 nr,name⟩) := by
      rw [← Nat.cast_succ,BitVec.ofInt_natCast]
      rfl
    rw [hlen,he]
    exact hwrite hlen

/-- `testfs_add_dirent` adds an entry with a new name, or fails without an effect. -/
theorem testfsAddDirent_spec (hm : d ∈ c.dirty) (h : Valid s c v) (hd : IsDir v d es)
    (hnew : lookup name es = none) (nr : ℕ) :
    Wlp (testfsAddDirent d name nr) s (fun r t =>
      (r < 0 ∧ Valid t c v ∧ (2^31 ≤ name.1.length + 1 ∨
        Cramped v d (place name es) ⟨BitVec.ofNat 32 nr,name⟩)) ∨
      ∃ w, 0 ≤ r ∧ Valid t c w ∧ Rewritten d (addEntry ⟨BitVec.ofNat 32 nr,name⟩ es) v w) := by
  have hsize := hd.size_le
  have hstop := hd.laid.stop_eq
  simp only [nrLogical,blockSize] at hsize
  simp only [testfsAddDirent,Wlp.bind_iff]
  refine (assertDir_spec h.stands d).mono ?_
  rintro _ t ⟨rfl,-⟩
  refine (scanDir_spec h.stands h.accounts hd (stopsAdd_toDirent name _)).mono ?_
  rintro r t1 ⟨rfl,rfl⟩
  cases hf : firstEntry (stopsAt name (toInt32 (name.1.length + 1))) es 0 with
  | mk f k =>
  have hplace : place name es = k := congrArg Prod.snd hf
  -- the entries before the place of the new one cannot take it
  have hpass : toInt32 (name.1.length + 1) = name.1.length + 1 → ∀ x ∈ es,
      stopsAt name (toInt32 (name.1.length + 1)) x = false →
      ¬(x.live = false ∧ x.len = (⟨BitVec.ofNat 32 nr,name⟩ : Entry).len) := by
    rintro hlen x hx hstopx ⟨hl,hxl⟩
    rw [stopsAt,hl,if_neg (by simp),hlen,toInt_len (len_lt_of_laid hd.laid hx),hxl] at hstopx
    simp [Entry.len] at hstopx
  cases f with
  | some x =>
    obtain ⟨pre,post,rfl,hx,hpre,hk⟩ := firstEntry_some hf
    rw [Nat.zero_add] at hk
    rw [sizes_append] at hstop
    have hxd : x.live = false := by
      by_contra hlive
      have hl : x.live = true := by simpa using hlive
      rw [stopsAt,if_pos hl,decide_eq_true_eq] at hx
      exact lookup_eq_none_iff.mp hnew x (by simp) hl hx
    simp only [Option.map_some]
    rw [Entry.live_toDirent,if_neg (by simp [hxd])]
    subst hk
    rw [toInt32_natCast (by omega)]
    refine testfsWriteDirent_spec (fun hlong => Or.inl ⟨by decide,h,Or.inl hlong⟩) fun hlen => ?_
    have hlx := len_lt_of_laid hd.laid (e := x) (by simp)
    rw [stopsAt,hxd,if_neg (by simp),hlen,toInt_len hlx,decide_eq_true_eq] at hx
    have hxl : x.len = (⟨BitVec.ofNat 32 nr,name⟩ : Entry).len := by
      simp only [Entry.len] at hx ⊢
      omega
    rw [addEntry_replace hxd hxl fun y hy => hpass hlen y (by simp [hy]) (hpre y hy)]
    refine (replaceEntry_spec hm h hd (by rw [Entry.size,Entry.size,hxl])).mono ?_
    rintro r t2 (⟨hr,h2,hwhy⟩ | hsucc)
    · exact Or.inl ⟨hr,h2,Or.inr (hplace ▸ hwhy)⟩
    · exact Or.inr hsucc
  | none =>
    obtain ⟨hpre,hk⟩ := firstEntry_none hf
    rw [Nat.zero_add] at hk hstop
    simp only [Option.map_none,Wlp.bind_iff]
    refine (inodeOf_spec h.stands d).mono ?_
    rintro inode t2 ⟨rfl,-,-⟩
    rw [Wlp.guard_iff]
    intro _
    subst hk
    rw [toInt32_natCast (by omega)]
    refine testfsWriteDirent_spec (fun hlong => Or.inl ⟨by decide,h,Or.inl hlong⟩) fun hlen => ?_
    rw [addEntry_append fun y hy => hpass hlen y hy (hpre y hy)]
    refine (appendEntry_spec hm h hd _).mono ?_
    rintro r t3 (⟨hr,h3,hwhy⟩ | hsucc)
    · exact Or.inl ⟨hr,h3,Or.inr (hplace ▸ hwhy)⟩
    · exact Or.inr hsucc

/-- The entry keeps a directory from being removed. -/
def Entry.isChild (e : Entry) : Bool := e.live && decide (e.name ≠ dot ∧ e.name ≠ dotdot)

theorem isChild_toDirent (e : Entry) : isChild e.toDirent = some (Entry.isChild e) := by
  rw [DirModel.isChild,Entry.live_toDirent,Entry.isChild]
  cases e.live with
  | false => rfl
  | true => simp only [Entry.toDirent,toCString_bytes,Option.map_some,if_pos,Bool.true_and]

/-- None of the entries keeps the inode from being removed. -/
def Removable (v : Volume) (i : ℕ) (es : List Entry) : Prop :=
  (v.inode i).iType = InodeType.dir.code → ∀ e ∈ es, Entry.isChild e = false

theorem testfsRemoveDirentAllowed_spec (hc : c.Counted) (h : Valid s c v) {i : ℕ}
    (hi : (v.inode i).iType = InodeType.dir.code → IsDir v i es) :
    Wlp (testfsRemoveDirentAllowed i) s (fun r t => Valid t c v ∧ (r < 0 ∨ Removable v i es)) := by
  have hback : ∀ t, Valid t ((c.hold i).release i) v → Valid t c v := by
    intro t ht
    rw [release_hold hc] at ht
    exact ht.mono rfl le_rfl rfl Set.sdiff_subset
  simp only [testfsRemoveDirentAllowed,testfsRemoveDirentAllowedWith,Wlp.bind_iff,monadLift_self]
  refine (testfsGetInode_valid h i).mono ?_
  intro _ t ht
  refine (inodeOf_spec ht.stands i).mono ?_
  rintro inode t1 ⟨rfl,-,hv⟩
  rw [hv,Wlp.ite_iff]
  constructor
  · intro hfile
    rw [Wlp.bind_iff]
    refine (testfsPutInode_valid ht i).mono ?_
    intro _ t2 h2
    exact Wlp.pure_iff.mpr ⟨hback _ h2,Or.inr fun hdir => absurd hdir hfile⟩
  · intro hdir
    simp only [Wlp.bind_iff]
    refine (scanDir_spec ht.stands ht.accounts (hi (not_not.mp hdir)) isChild_toDirent).mono ?_
    rintro r t2 ⟨rfl,rfl⟩
    refine (testfsPutInode_valid ht i).mono ?_
    intro _ t3 h3
    simp only
    rw [firstEntry_fst]
    cases hfind : es.find? Entry.isChild with
    | none =>
      refine Wlp.pure_iff.mpr ⟨hback _ h3,Or.inr fun _ e he => ?_⟩
      simpa using List.find?_eq_none.mp hfind e he
    | some e => exact Wlp.pure_iff.mpr ⟨hback _ h3,Or.inl (by decide)⟩

theorem toInt_of_live {e : Entry} (he : e.live = true) : e.nr.toInt = e.nr.toNat := by
  have hlive : 0 ≤ e.nr.toInt := of_decide_eq_true he
  rw [BitVec.toInt_eq_toNat_cond] at hlive ⊢
  split at hlive
  · rw [if_pos ‹_›]
  · have := e.nr.isLt
    omega

/-- `testfs_remove_dirent` deletes the entry with a name whose inode can be removed, or fails
without an effect. -/
theorem testfsRemoveDirent_spec (hm : d ∈ c.dirty) (hc : c.Counted) (h : Valid s c v)
    (hd : IsDir v d es) {E : ℕ → List Entry}
    (hi : ∀ i, (v.inode i).iType = InodeType.dir.code → IsDir v i (E i)) :
    Wlp (testfsRemoveDirent d name) s (fun r t =>
      (r < 0 ∧ Valid t c v) ∨
      ∃ w e, lookup name es = some e ∧ name ≠ dot ∧ name ≠ dotdot ∧ Removable v e.nr.toNat (E e.nr.toNat) ∧
        r = e.nr.toNat ∧ Valid t c w ∧ Rewritten d (killEntry name es) v w) := by
  rw [testfsRemoveDirent,testfsRemoveDirentWith,Wlp.ite_iff]
  refine ⟨fun _ => Wlp.pure_iff.mpr (Or.inl ⟨by decide,h⟩),fun hname => ?_⟩
  obtain ⟨hdot,hdotdot⟩ := not_or.mp hname
  rw [Wlp.bind_iff]
  refine (scanDir_spec h.stands h.accounts hd (isEntry_toDirent name)).mono ?_
  rintro r t ⟨rfl,rfl⟩
  cases hf : firstEntry (Entry.isNamed name) es 0 with
  | mk f k =>
  cases f with
  | none => exact Wlp.pure_iff.mpr (Or.inl ⟨by decide,h⟩)
  | some e =>
    have hlook : lookup name es = some e := by rw [lookup,← firstEntry_fst _ es 0,hf]
    obtain ⟨pre,post,rfl,he,hpre,hk⟩ := firstEntry_some hf
    rw [Nat.zero_add] at hk
    subst hk
    have hnr := toInt_of_live (lookup_some hlook).2.1
    simp only [Option.map_some]
    rw [Wlp.bind_iff]
    refine (testfsRemoveDirentAllowed_spec hc h (hi _)).mono ?_
    rintro r t1 ⟨h1,hr⟩
    rw [Wlp.ite_iff]
    refine ⟨fun hneg => Wlp.pure_iff.mpr (Or.inl ⟨hneg,h1⟩),fun hpos => ?_⟩
    have hrem := hr.resolve_left hpos
    rw [Wlp.bind_iff,Wlp.liftM_iff,Wlp.guard_iff]
    intro _
    rw [Wlp.bind_iff]
    refine (replaceEntry_spec (e := { e with nr := invalidInodeNr }) hm h1 hd rfl).mono ?_
    rintro r2 t2 (⟨hneg,h2,-⟩ | ⟨w,hge,hw,hrw⟩)
    · rw [if_neg (by omega),Wlp.pure_iff]
      exact Or.inl ⟨hneg,h2⟩
    · rw [if_pos hge,Wlp.pure_iff]
      refine Or.inr ⟨w,e,hlook,hdot,hdotdot,hrem,hnr,hw,?_⟩
      rw [killEntry_append he hpre]
      exact hrw

end Entries

end DirOps
end OsLabs

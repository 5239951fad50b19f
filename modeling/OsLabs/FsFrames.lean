import Mathlib.Data.BitVec
import Mathlib.Tactic
import OsLabs.Bytes
import OsLabs.Wlp
import OsLabs.Transition
import OsLabs.FsModel
import OsLabs.DirModel
import OsLabs.FsVolume
import OsLabs.FsAccounts
import OsLabs.FsRemoval
import OsLabs.Dirents
import OsLabs.DirMap
import OsLabs.DirOps
import OsLabs.FsCreation
import OsLabs.FsTree
import OsLabs.FsCommands
import OsLabs.FsReading
import OsLabs.FsWriting
import OsLabs.FsImage
import OsLabs.FsMaking
import OsLabs.FsSessions
import OsLabs.FsFiles

/-!
# What a step leaves alone

Each function is given the inodes that it may change; all others keep their data, their blocks and
their contents. A program that is put together of such functions changes the inodes that its parts
may change, so that nothing has to be known of what it does. Along with this goes an invariant of
all files and directories: they are zero from their end on.
-/

namespace OsLabs
namespace FsFrames

open Bytes FsModel DirModel FsVolume FsAccounts FsRemoval Dirents DirMap DirOps FsCreation
open FsTree FsCommands FsReading FsImage FsMaking FsSessions FsFiles Transition

/-! ## The invariant and the frame -/

/-- The inode `i` has a size, and its contents are zero from there on. -/
structure Tail (v : Volume) (i : ℕ) : Prop where
  nonneg : 0 ≤ (v.inode i).iSize.toInt
  zero : ∀ q : ℕ, (v.inode i).iSize.toInt ≤ q → contents v i q = 0
  dir : Directory v i → (v.inode i).iSize.toInt ≤ nrLogical*blockSize

structure Sound (s : Testfs) : Prop where
  valid : ∃ c, Valid s c (volume s)
  tail : ∀ i, Tail (volume s) i

/-- Nothing of the inode `j` has changed. -/
structure Untouched (j : ℕ) (v w : Volume) : Prop where
  inode : w.inode j = v.inode j
  ref : ref w j = ref v j
  logical : logical w j = logical v j
  marked : w.inodeUsed j = v.inodeUsed j

/-- Only inodes in `J` have changed. -/
structure Leaves (J : Set ℕ) (s t : Testfs) : Prop where
  sound : Sound t
  others : ∀ j, j ∉ J → Untouched j (volume s) (volume t)

/-- The program changes only inodes in `J`. -/
def Touches {α : Type} (J : Set ℕ) (m : FsM α) : Prop :=
  ∀ s, Sound s → Wlp m s fun _ t => Leaves J s t

section Rules

variable {α β : Type} {J K : Set ℕ} {i j : ℕ} {s t u : Testfs} {c : Memory} {v w x : Volume}

theorem Untouched.refl (j : ℕ) (v : Volume) : Untouched j v v := ⟨rfl,rfl,rfl,rfl⟩

theorem Untouched.trans (h : Untouched j v w) (h' : Untouched j w x) : Untouched j v x :=
  ⟨h'.inode.trans h.inode,h'.ref.trans h.ref,h'.logical.trans h.logical,h'.marked.trans h.marked⟩

theorem Untouched.contents (h : Untouched j v w) : contents w j = contents v j := by
  funext q
  rw [Dirents.contents,Dirents.contents,h.logical]

theorem Tail.congr (h : Tail v i) (hi : w.inode i = v.inode i) (hl : logical w i = logical v i) :
    Tail w i := by
  have hc : contents w i = contents v i := by
    funext q
    rw [contents,contents,hl]
  refine ⟨?_,?_,?_⟩
  · rw [hi]
    exact h.nonneg
  · rw [hi,hc]
    exact h.zero
  · rw [Directory,hi]
    exact h.dir

theorem Untouched.tail (h : Untouched j v w) (ht : Tail v j) : Tail w j := ht.congr h.inode h.logical

/-- An inode without data. -/
theorem tail_zero (hi : (v.inode i).iSize = 0) (hr : ∀ l, ref v i l = 0) : Tail v i := by
  have hl := logical_of_ref_zero hr
  refine ⟨?_,fun q _ => ?_,fun _ => ?_⟩
  · rw [hi]
    decide
  · rw [contents,hl]
  · rw [hi]
    decide

theorem Leaves.refl (h : Sound s) : Leaves J s s := ⟨h,fun j _ => Untouched.refl j _⟩

theorem Leaves.trans (h : Leaves J s t) (h' : Leaves J t u) : Leaves J s u :=
  ⟨h'.sound,fun j hj => (h.others j hj).trans (h'.others j hj)⟩

theorem Leaves.mono (h : Leaves J s t) (hJ : J ⊆ K) : Leaves K s t :=
  ⟨h.sound,fun j hj => h.others j fun hc => hj (hJ hc)⟩

/-- The inodes that changed are sound if they have tails. -/
theorem leaves_of_valid (hs : Sound s) (ht : Valid t c w)
    (hin : ∀ j ∈ J, Tail w j) (hout : ∀ j, j ∉ J → Untouched j (volume s) w) : Leaves J s t := by
  obtain rfl := ht.stands.volume_eq
  refine ⟨⟨⟨c,ht⟩,fun j => ?_⟩,hout⟩
  by_cases hj : j ∈ J
  · exact hin j hj
  · exact (hout j hj).tail (hs.tail j)

/-- A step without an effect on the volume. -/
theorem leaves_of_same (hs : Sound s) (ht : Valid t c (volume s)) : Leaves J s t :=
  (leaves_of_valid (J := ∅) hs ht (fun _ hj => hj.elim) fun j _ => Untouched.refl j _).mono
    (Set.empty_subset J)

theorem Touches.mono {m : FsM α} (h : Touches J m) (hJ : J ⊆ K) : Touches K m :=
  fun s hs => (h s hs).mono fun _ _ ht => ht.mono hJ

theorem Touches.of_keeps {m : FsM α} (h : Keeps m) : Touches J m := by
  intro s hs
  refine (h s).mono ?_
  rintro _ t rfl
  exact Leaves.refl hs

theorem Touches.pure (a : α) : Touches J (pure a : FsM α) := Touches.of_keeps (Keeps.pure a)

theorem Touches.bind {m : FsM α} {f : α → FsM β} (hm : Touches J m) (hf : ∀ a, Touches J (f a)) :
    Touches J (m >>= f) := by
  intro s hs
  rw [Wlp.bind_iff]
  refine (hm s hs).mono fun a t ht => ?_
  exact (hf a t ht.sound).mono fun _ _ hu => ht.trans hu

theorem Touches.ite {c : Prop} [Decidable c] {m n : FsM α} (hm : Touches J m) (hn : Touches J n) :
    Touches J (if c then m else n) := by
  split
  · exact hm
  · exact hn

theorem Leaves.wlp {m : FsM α} (h : Leaves J s t) (hm : Touches J m) :
    Wlp m t fun _ u => Leaves J s u :=
  (hm t h.sound).mono fun _ _ hu => h.trans hu

end Rules

/-! ## Writing -/

section Writing

variable {i n ix o : ℕ} {buf : List Byte} {v w : Volume}

/-- The number of a block that can be written is at most the one of the offset. -/
theorem le_div_of_toInt32 (ho : o < 2^63) (hn : toInt32 (o/blockSize : ℕ) = n) :
    n ≤ o/blockSize ∧ o/blockSize < 2^50 - 1 := by
  have hdiv : o/blockSize < 2^50 := by
    simp only [blockSize]
    omega
  generalize o/blockSize = k at *
  rw [toInt32,Int.bmod_def] at hn
  split at hn <;> omega

/-- Up to the last block of a file no number is changed. -/
theorem eq_div_of_toInt32 (ho : o ≤ nrLogical*blockSize) (hn : toInt32 (o/blockSize : ℕ) = n) :
    n = o/blockSize := by
  rw [(offset_arith ho).2.2] at hn
  exact_mod_cast hn.symm

/-- The end of a write is a number of type `off_t`. -/
theorem add_lt_of_toInt32 (ho : o < 2^63) (hn : toInt32 (o/blockSize : ℕ) = n)
    (hfit : o % blockSize + buf.length ≤ blockSize) : o + buf.length < 2^63 := by
  have hdiv := (le_div_of_toInt32 ho hn).2
  simp only [blockSize] at *
  omega

theorem toInt_iSize_of_written (h : Written i n ix buf o v w) (hend : o + buf.length < 2^63) :
    (w.inode i).iSize.toInt = if buf = [] then (v.inode i).iSize.toInt
      else max (v.inode i).iSize.toInt (o + buf.length : ℕ) := by
  have hhi := (v.inode i).iSize.toInt_lt
  rw [h.iSize]
  by_cases hb : buf = []
  · rw [if_pos hb,if_neg (by rw [hb]; exact lt_irrefl 0)]
  · rw [if_neg hb,if_pos (List.length_pos_iff.mpr hb),← Nat.cast_add,toInt64_natCast hend,
      BitVec.toInt_ofInt]
    exact Int.bmod_eq_of_le (by omega) (by omega)

/-- A write keeps the tail of the file, wherever the number of its block leads. -/
theorem tail_of_written (h : Written i n ix buf o v w) (hn : toInt32 (o/blockSize : ℕ) = n)
    (hix : ix = o % blockSize) (ho : o < 2^63) (hdir : Directory v i → o ≤ nrLogical*blockSize)
    (ht : Tail v i) : Tail w i := by
  have hfit := h.offset_le
  rw [hix] at hfit
  have hend := add_lt_of_toInt32 ho hn hfit
  have hsize := toInt_iSize_of_written h hend
  have hle := (le_div_of_toInt32 ho hn).1
  have hcont := Written.contents_eq h
  rw [hix] at hcont
  by_cases hb : buf = []
  · rw [if_pos hb] at hsize
    have hsame : contents w i = contents v i := by
      rw [hcont,hb]
      funext q
      exact copyIn_of_notMem _ (by simp only [List.length_nil]; omega)
    refine ⟨?_,?_,?_⟩
    · rw [hsize]
      exact ht.nonneg
    · rw [hsize,hsame]
      exact ht.zero
    · rw [hsize,Directory,h.iType]
      exact ht.dir
  · rw [if_neg hb] at hsize
    refine ⟨?_,fun q hq => ?_,fun hd => ?_⟩
    · have := ht.nonneg
      omega
    · rw [hcont,copyIn_of_notMem]
      · exact ht.zero q (by omega)
      · simp only [blockSize] at *
        omega
    · rw [Directory,h.iType] at hd
      have hold := ht.dir hd
      have heq := eq_div_of_toInt32 (hdir hd) hn
      have hlog := h.block_lt
      simp only [nrLogical,blockSize] at *
      omega

end Writing

/-! ## Inodes -/

section Inodes

variable {s : Testfs} {i : ℕ}

theorem touches_testfsGetInode (i : ℕ) : Touches ∅ (testfsGetInode i) := by
  intro s hs
  obtain ⟨c,hv⟩ := hs.valid
  exact (testfsGetInode_valid hv i).mono fun _ _ ht => leaves_of_same hs ht

theorem touches_testfsPutInode (i : ℕ) : Touches ∅ (testfsPutInode i) := by
  intro s hs
  obtain ⟨c,hv⟩ := hs.valid
  exact (testfsPutInode_valid hv i).mono fun _ _ ht => leaves_of_same hs ht

theorem touches_testfsSyncInode (i : ℕ) : Touches ∅ (testfsSyncInode i) := by
  intro s hs
  obtain ⟨c,hv⟩ := hs.valid
  refine (testfsSyncInode_valid hv i).mono fun _ t ht => ?_
  exact leaves_of_valid hs ht (fun _ hj => hj.elim) fun j _ => ⟨rfl,rfl,rfl,rfl⟩

theorem testfsRemoveInode_leaves (hs : Sound s) (i : ℕ) :
    Wlp (testfsRemoveInode i) s (fun _ t => Leaves {i} s t ∧ ¬Marked (volume t) i) := by
  obtain ⟨c,hv⟩ := hs.valid
  refine (testfsRemoveInode_valid (Set.mem_insert i _) (hv.touch i)).mono ?_
  rintro _ t ⟨w,ht,hr⟩
  refine ⟨leaves_of_valid hs ht ?_ fun j hj => ?_,?_⟩
  · rintro j rfl
    exact tail_zero (by rw [hr.self]; rfl) hr.ref_self
  · exact ⟨hr.inode j hj,hr.ref j hj,hr.logical j hj,by rw [hr.inodeUsed,Function.update_of_ne hj]⟩
  · rw [ht.stands.volume_eq,Marked,hr.inodeUsed,Function.update_self]
    simp

theorem touches_testfsRemoveInode (i : ℕ) : Touches {i} (testfsRemoveInode i) :=
  fun _ hs => (testfsRemoveInode_leaves hs i).mono fun _ _ ht => ht.1

/-- A new inode was not used. -/
theorem testfsCreateInode_leaves (hs : Sound s)
    (hfresh : ∀ j, ¬Marked (volume s) j → (volume s).inode j = Dinode.zero) (type : InodeType) :
    Wlp (testfsCreateInode type) s (fun r t => Leaves {j | ¬Marked (volume s) j} s t ∧
      ∀ i, r = some i → ¬Marked (volume s) i) := by
  obtain ⟨c,hv⟩ := hs.valid
  refine (testfsCreateInode_valid hv type).mono ?_
  intro r t ht
  cases r with
  | none => exact ⟨leaves_of_same hs ht.1,fun i hi => by cases hi⟩
  | some i =>
    obtain ⟨w,hw,ho⟩ := ht
    have hunused : ¬Marked (volume s) i := by
      rw [Marked,ho.unused]
      simp
    refine ⟨leaves_of_valid hs hw (fun j hj => ?_) fun j hj => ?_,?_⟩
    · by_cases hji : j = i
      · subst hji
        refine tail_zero ?_ fun l => ?_
        · rw [ho.self,hfresh j hunused]
          rfl
        · rw [ho.ref]
          exact ref_zero (hfresh j hunused) l
      · exact (hs.tail j).congr (ho.inode j hji) (congrFun ho.logical j)
    · have hji : j ≠ i := fun hc => hj (hc ▸ hunused)
      exact ⟨ho.inode j hji,congrFun ho.ref j,congrFun ho.logical j,
        by rw [ho.inodeUsed,Function.update_of_ne hji]⟩
    · intro k hk
      cases hk
      exact hunused

/-- A write at an offset of type `off_t`, which for a directory lies in the range of a file. -/
theorem testfsWriteData_leaves (hs : Sound s) (buf : List Byte) {start : ℤ} (h0 : 0 ≤ start)
    (hlt : start < 2^63) (hdir : Directory (volume s) i → start ≤ nrLogical*blockSize) :
    Wlp (testfsWriteData i buf start) s (fun _ t => Leaves {i} s t) := by
  lift start to ℕ using h0 with o
  obtain ⟨c,hv⟩ := hs.valid
  have hv' := hv.touch i
  obtain ⟨hdiv,hmod⟩ := natCast_tdiv_blockSize o
  refine (testfsWriteData_spec (c := (c.touch i).resize s.dev.size) (Set.mem_insert i _)
    (hv'.stands.resize le_rfl) hv'.accounts buf o).mono ?_
  rw [hdiv,hmod,Int.toNat_natCast]
  rintro r t (⟨-,ht,-⟩ | ⟨w,-,ht,hn,-,hw,hin⟩)
  · exact leaves_of_same hs (hv'.same rfl ht)
  · refine leaves_of_valid hs (hv'.write rfl ht hw.accounts hw.frame hin) ?_ fun j hj => ?_
    · rintro j rfl
      refine tail_of_written hw (Int.toNat_of_nonneg hn).symm rfl (by exact_mod_cast hlt)
        (fun hd => by exact_mod_cast hdir hd) (hs.tail j)
    · exact ⟨hw.frame.inode j hj,hw.frame.ref j hj,hw.frame.logical j hj,
        congrFun hw.frame.inodeUsed j⟩

end Inodes

/-! ## Directories -/

section Directories

variable {s : Testfs} {c : Memory} {v : Volume} {d : ℕ}

/-- An entry that is found begins before the end of a directory. -/
theorem testfsNextDirent_found (hs : Stands s c v) (d : ℕ) (o : ℤ) :
    Wlp (testfsNextDirent d o) s (fun r t => t = s ∧ ∀ e next, r = some (e,next) →
      Directory v d ∧ o < (v.inode d).iSize.toInt ∧ o ≤ next) := by
  refine (keeps_testfsNextDirent d o s).and ?_
  rw [testfsNextDirent,Wlp.bind_iff]
  refine (assertDir_spec hs d).mono ?_
  rintro _ t ⟨rfl,hdir⟩
  rw [Wlp.bind_iff]
  refine (inodeOf_spec hs d).mono ?_
  rintro inode t1 ⟨rfl,-,hv⟩
  rw [hv,Wlp.ite_iff]
  have hnone : ∀ (e : Dirent) (next : ℤ), (none : Option (Dirent × ℤ)) = some (e,next) →
      Directory v d ∧ o < (v.inode d).iSize.toInt ∧ o ≤ next := fun _ _ h => by cases h
  refine ⟨fun _ => Wlp.pure_iff.mpr hnone,fun hlt => ?_⟩
  rw [Wlp.bind_iff]
  refine (keeps_testfsReadData d o 8 t1).mono ?_
  rintro ⟨ret,b⟩ t2 rfl
  rw [Wlp.ite_iff]
  refine ⟨fun _ => Wlp.pure_iff.mpr hnone,fun _ => ?_⟩
  rw [Wlp.bind_iff,Wlp.guard_iff]
  intro _
  rw [Wlp.bind_iff,Wlp.guard_iff]
  intro _
  rw [Wlp.bind_iff]
  refine (keeps_testfsReadData d _ _ t2).mono ?_
  rintro ⟨ret',b'⟩ t3 rfl
  rw [Wlp.ite_iff]
  refine ⟨fun _ => Wlp.pure_iff.mpr hnone,fun _ => Wlp.pure_iff.mpr ?_⟩
  rintro e next he
  cases he
  exact ⟨hdir,not_le.mp hlt,by omega⟩

theorem scanDirents_found (hs : Stands s c v) (d : ℕ) (p : Dirent → Option Bool) (n : ℕ) (o : ℤ) :
    Wlp (scanDirents d p n o) s (fun r t => t = s ∧ o ≤ r.2 ∧
      (r.1 ≠ none → Directory v d ∧ r.2 < (v.inode d).iSize.toInt)) := by
  induction n generalizing o with
  | zero => exact Wlp.of_failure
  | succ n ih =>
    rw [scanDirents,Wlp.bind_iff]
    refine (testfsNextDirent_found hs d o).mono ?_
    rintro r t ⟨rfl,hr⟩
    cases r with
    | none => exact Wlp.pure_iff.mpr ⟨rfl,le_rfl,fun h => absurd rfl h⟩
    | some r =>
      obtain ⟨hdir,hlt,hnext⟩ := hr r.1 r.2 rfl
      rw [Wlp.bind_iff,Wlp.lift_iff]
      intro stop _
      rw [Wlp.ite_iff]
      refine ⟨fun _ => Wlp.pure_iff.mpr ⟨rfl,le_rfl,fun _ => ⟨hdir,hlt⟩⟩,fun _ => ?_⟩
      refine (ih r.2).mono ?_
      rintro r' t' ⟨rfl,hle,hfound⟩
      exact ⟨rfl,hnext.trans hle,hfound⟩

/-- The loop over a directory stops at an offset that is not negative, and before the end if it
has found an entry. -/
theorem scanDir_found (hs : Stands s c v) (d : ℕ) (p : Dirent → Option Bool) :
    Wlp (scanDir d p) s (fun r t => t = s ∧ 0 ≤ r.2 ∧
      (r.1 ≠ none → Directory v d ∧ r.2 < (v.inode d).iSize.toInt)) := by
  rw [scanDir,Wlp.bind_iff]
  refine (keeps_inodeOf d s).mono ?_
  rintro inode t rfl
  exact scanDirents_found hs d p _ 0

/-- Writing in a directory up to its end. -/
theorem writeInDir_leaves (hs : Sound s) (hd : Directory (volume s) d) (buf : List Byte) {o : ℤ}
    (h0 : 0 ≤ o) (hle : o ≤ ((volume s).inode d).iSize.toInt) :
    Wlp (testfsWriteData d buf o) s (fun _ t => Leaves {d} s t) := by
  have hlimit := (hs.tail d).dir hd
  refine testfsWriteData_leaves hs buf h0 ?_ fun _ => hle.trans hlimit
  simp only [nrLogical,blockSize] at hlimit
  omega

theorem testfsWriteDirent_leaves (hs : Sound s) (hd : Directory (volume s) d) {o : ℤ} (h0 : 0 ≤ o)
    (hle : o ≤ ((volume s).inode d).iSize.toInt) (name : CString) (len : ℤ) (i : ℕ) :
    Wlp (testfsWriteDirent d name len i (toInt32 o)) s (fun _ t => Leaves {d} s t) := by
  have hlimit := (hs.tail d).dir hd
  have ho : toInt32 o = o := by
    lift o to ℕ using h0
    simp only [nrLogical,blockSize] at hlimit
    exact toInt32_natCast (by omega)
  rw [ho,testfsWriteDirent,Wlp.ite_iff]
  refine ⟨fun _ => Wlp.pure_iff.mpr (Leaves.refl hs),fun _ => ?_⟩
  rw [Wlp.bind_iff,Wlp.guard_iff]
  exact fun _ => writeInDir_leaves hs hd _ h0 hle

theorem touches_testfsAddDirent (d : ℕ) (name : CString) (i : ℕ) :
    Touches {d} (testfsAddDirent d name i) := by
  intro s hs
  obtain ⟨c,hv⟩ := hs.valid
  simp only [testfsAddDirent,Wlp.bind_iff]
  refine (assertDir_spec hv.stands d).mono ?_
  rintro _ t ⟨rfl,hdir⟩
  refine (scanDir_found hv.stands d _).mono ?_
  rintro ⟨r,o⟩ t1 ⟨rfl,h0,hfound⟩
  cases r with
  | some e =>
    simp only
    rw [Wlp.ite_iff]
    refine ⟨fun _ => Wlp.pure_iff.mpr (Leaves.refl hs),fun _ => ?_⟩
    exact testfsWriteDirent_leaves hs hdir h0 (hfound (by simp)).2.le name _ i
  | none =>
    simp only [Wlp.bind_iff]
    refine (inodeOf_spec hv.stands d).mono ?_
    rintro inode t2 ⟨rfl,-,hi⟩
    rw [Wlp.guard_iff,hi]
    exact fun ho => testfsWriteDirent_leaves hs hdir h0 ho.le name _ i

theorem touches_testfsRemoveDirentAllowed (i : ℕ) : Touches ∅ (testfsRemoveDirentAllowed i) := by
  refine (touches_testfsGetInode i).bind fun _ => ?_
  refine (Touches.of_keeps (keeps_inodeOf i)).bind fun inode => Touches.ite ?_ ?_
  · exact (touches_testfsPutInode i).bind fun _ => Touches.pure _
  · refine (Touches.of_keeps (keeps_scanDir i _)).bind fun r => ?_
    refine (touches_testfsPutInode i).bind fun _ => ?_
    cases r.1 with
    | none => exact Touches.pure _
    | some e => exact Touches.pure _

theorem touches_testfsRemoveDirent (d : ℕ) (name : CString) :
    Touches {d} (testfsRemoveDirent d name) := by
  refine Touches.ite (Touches.pure _) ?_
  intro s hs
  obtain ⟨c,hv⟩ := hs.valid
  rw [Wlp.bind_iff]
  refine (scanDir_found hv.stands d _).mono ?_
  rintro ⟨r,o⟩ t ⟨rfl,h0,hfound⟩
  cases r with
  | none => exact Wlp.pure_iff.mpr (Leaves.refl hs)
  | some e =>
    obtain ⟨hdir,hlt⟩ := hfound (by simp)
    simp only [Wlp.bind_iff]
    refine (touches_testfsRemoveDirentAllowed e.dInodeNr.toNat t hs).mono fun ret t1 h1 => ?_
    have hleft : Leaves {d} t t1 := h1.mono (Set.empty_subset _)
    have hsame := (h1.others d (Set.notMem_empty d)).inode
    rw [Wlp.ite_iff]
    refine ⟨fun _ => Wlp.pure_iff.mpr hleft,fun _ => ?_⟩
    rw [Wlp.bind_iff,Wlp.liftM_iff,Wlp.guard_iff]
    intro _
    rw [Wlp.bind_iff]
    refine (writeInDir_leaves h1.sound (by rwa [Directory,hsame]) _ h0 (hsame ▸ hlt.le)).mono
      fun ret' t2 h2 => ?_
    split
    · exact Wlp.pure_iff.mpr (hleft.trans h2)
    · exact Wlp.pure_iff.mpr (hleft.trans h2)

theorem touches_testfsCreateEmptyDir (p d : ℕ) : Touches {d} (testfsCreateEmptyDir p d) := by
  refine (Touches.of_keeps (keeps_assertDir d)).bind fun _ => ?_
  refine (touches_testfsAddDirent d dot d).bind fun ret => Touches.ite (Touches.pure _) ?_
  refine (touches_testfsAddDirent d dotdot p).bind fun ret => Touches.ite ?_ (Touches.pure _)
  exact (touches_testfsRemoveDirent d dot).bind fun _ => Touches.pure _

theorem touches_createContents (type : InodeType) (p i : ℕ) :
    Touches {i} (createContents type p i) :=
  Touches.ite (touches_testfsCreateEmptyDir p i) (Touches.pure _)

end Directories

/-! ## Commands -/

section Commands

variable {s t : Testfs} {c : Memory} {v : Volume} {E : ℕ → List Entry} {name : CString} {i d : ℕ}

theorem testfsCreateFileOrDir_leaves (hs : Sound s)
    (hfresh : ∀ j, ¬Marked (volume s) j → (volume s).inode j = Dinode.zero) (d : ℕ)
    (type : InodeType) (name : CString) :
    Wlp (testfsCreateFileOrDir d type name) s
      (fun _ t => Leaves (insert d {j | ¬Marked (volume s) j}) s t) := by
  rw [testfsCreateFileOrDir,testfsCreateFileOrDirWith,Wlp.bind_iff]
  refine (keeps_testfsDirNameToInodeNr d name s).mono ?_
  rintro r t rfl
  rw [Wlp.ite_iff]
  refine ⟨fun _ => Wlp.pure_iff.mpr (Leaves.refl hs),fun _ => ?_⟩
  rw [Wlp.bind_iff]
  refine (testfsCreateInode_leaves hs hfresh type).mono ?_
  rintro r1 t1 ⟨h1,hunused⟩
  replace h1 := h1.mono (Set.subset_insert d _)
  cases r1 with
  | none => exact Wlp.pure_iff.mpr h1
  | some i =>
    have hi : {i} ⊆ insert d {j | ¬Marked (volume t) j} :=
      Set.singleton_subset_iff.mpr (Set.mem_insert_of_mem d (hunused i rfl))
    have hd : {d} ⊆ insert d {j | ¬Marked (volume t) j} :=
      Set.singleton_subset_iff.mpr (Set.mem_insert d _)
    have hremove := (touches_testfsRemoveInode i).mono hi
    refine h1.wlp (((touches_createContents type d i).mono hi).bind fun ret => Touches.ite ?_ ?_)
    · exact hremove.bind fun _ => Touches.pure _
    refine ((touches_testfsAddDirent d name i).mono hd).bind fun ret => Touches.ite ?_ ?_
    · exact hremove.bind fun _ => Touches.pure _
    refine ((touches_testfsSyncInode d).mono (Set.empty_subset _)).bind fun _ => ?_
    refine ((touches_testfsSyncInode i).mono (Set.empty_subset _)).bind fun _ => ?_
    exact ((touches_testfsPutInode i).mono (Set.empty_subset _)).bind fun _ => Touches.pure _

theorem cmdCreateType_leaves (hs : Sound s)
    (hfresh : ∀ j, ¬Marked (volume s) j → (volume s).inode j = Dinode.zero) (type : InodeType)
    (args : List CString) :
    Wlp (cmdCreateType type args) s
      (fun _ t => Leaves (insert s.curDir {j | ¬Marked (volume s) j}) s t) := by
  refine wlp_unary (f := cmdCreateType type) rfl (fun _ _ _ => rfl) (Leaves.refl hs) (fun name => ?_) args
  simp only [cmdCreateType,cmdCreateTypeWith,Wlp.bind_iff,Wlp.get_iff,monadLift_self]
  refine (testfsCreateFileOrDir_leaves hs hfresh s.curDir type name).mono fun _ _ ht => ?_
  exact Wlp.pure_iff.mpr ht

/-- The removed inode is not marked any more. -/
theorem cmdRm_leaves (hs : Sound s) (args : List CString) :
    Wlp (cmdRm args) s
      (fun _ t => Leaves (insert s.curDir {j | ¬Marked (volume t) j}) s t) := by
  refine wlp_unary (f := cmdRm) rfl (fun _ _ _ => rfl) (Leaves.refl hs) (fun name => ?_) args
  have hcur : ∀ t : Testfs, {s.curDir} ⊆ insert s.curDir {j | ¬Marked (volume t) j} :=
    fun t => Set.singleton_subset_iff.mpr (Set.mem_insert _ _)
  simp only [cmdRm,cmdRmWith,Wlp.bind_iff,Wlp.get_iff,monadLift_self]
  refine (touches_testfsRemoveDirent s.curDir name s hs).mono fun ret t h1 => ?_
  rw [Wlp.ite_iff]
  refine ⟨fun _ => Wlp.pure_iff.mpr (h1.mono (hcur t)),fun _ => ?_⟩
  simp only [Wlp.bind_iff]
  refine (touches_testfsGetInode ret.toNat t h1.sound).mono fun _ t1 h2 => ?_
  refine (testfsRemoveInode_leaves h2.sound ret.toNat).mono ?_
  rintro _ t2 ⟨h3,hgone⟩
  refine (touches_testfsSyncInode s.curDir t2 h3.sound).mono fun _ t3 h4 => ?_
  have hlast := fun j => (h4.others j (Set.notMem_empty j)).marked
  refine Wlp.pure_iff.mpr ⟨h4.sound,fun j hj => ?_⟩
  obtain ⟨hjd,hmark⟩ := not_or.mp hj
  have hjr : j ≠ ret.toNat := by
    rintro rfl
    refine hmark fun hc => hgone ?_
    rwa [Marked,← hlast]
  exact (h1.others j hjd).trans ((h2.others j (Set.notMem_empty j)).trans
    ((h3.others j hjr).trans (h4.others j (Set.notMem_empty j))))

theorem touches_testfsLs (recursive : Bool) (n i : ℕ) (o : ℤ) : Touches ∅ (testfsLs recursive n i o) := by
  induction n generalizing i o with
  | zero => exact Touches.of_keeps Keeps.failure
  | succ n ih =>
    refine (Touches.of_keeps (keeps_testfsNextDirent i o)).bind fun r => ?_
    cases r with
    | none => exact Touches.pure _
    | some p =>
      refine Touches.ite (ih i p.2) ?_
      refine (touches_testfsGetInode _).bind fun _ => ?_
      refine (Touches.of_keeps (keeps_inodeOf _)).bind fun inode => ?_
      refine (Touches.of_keeps (Keeps.lift _)).bind fun name => ?_
      refine Touches.ite ((ih _ 0).bind fun below => ?_) ?_
      · refine (touches_testfsPutInode _).bind fun _ => ?_
        exact (ih i p.2).bind fun rest => Touches.pure _
      · refine (touches_testfsPutInode _).bind fun _ => ?_
        exact (ih i p.2).bind fun rest => Touches.pure _

theorem touches_cmdLsInternal (recursive : Bool) (args : List CString) :
    Touches ∅ (cmdLsInternal recursive args) := by
  rw [cmdLsInternal,cmdLsInternalWith.eq_def]
  split
  · refine (Touches.of_keeps Keeps.get).bind fun s => ?_
    refine (Touches.of_keeps (keeps_testfsDirNameToInodeNr _ _)).bind fun r => ?_
    refine Touches.ite (Touches.pure _) ((touches_testfsGetInode _).bind fun _ => ?_)
    refine (Touches.of_keeps (keeps_inodeOf _)).bind fun inode => Touches.ite ?_ (Touches.pure _)
    refine (touches_testfsLs recursive lsFuel _ 0).bind fun names => ?_
    exact (touches_testfsPutInode _).bind fun _ => Touches.pure _
  · exact Touches.pure _

theorem touches_testfsPwd (n i : ℕ) : Touches ∅ (testfsPwd n i) := by
  induction n generalizing i with
  | zero => exact Touches.of_keeps Keeps.failure
  | succ n ih =>
    refine (Touches.of_keeps (keeps_testfsDirNameToInodeNr i dotdot)).bind fun r => ?_
    refine (Touches.of_keeps (Keeps.guard _)).bind fun _ => Touches.ite (Touches.pure _) ?_
    refine (touches_testfsGetInode _).bind fun _ => ?_
    refine (Touches.of_keeps (keeps_testfsFindDirent _ _)).bind fun d => ?_
    refine (Touches.of_keeps (Keeps.lift _)).bind fun d' => (ih _).bind fun above => ?_
    refine (touches_testfsPutInode _).bind fun _ => ?_
    exact (Touches.of_keeps (Keeps.lift _)).bind fun name => Touches.pure _

theorem touches_cmdPwd (args : List CString) : Touches ∅ (cmdPwd args) := by
  rw [cmdPwd,cmdPwdWith.eq_def]
  split
  · refine (Touches.of_keeps Keeps.get).bind fun s => ?_
    exact (touches_testfsPwd _ _).bind fun path => Touches.pure _
  · exact Touches.pure _

theorem touches_cmdCd (args : List CString) : Touches ∅ (cmdCd args) := by
  rw [cmdCd,cmdCdWith.eq_def]
  split
  · refine (Touches.of_keeps Keeps.get).bind fun s => ?_
    refine (Touches.of_keeps (keeps_testfsDirNameToInodeNr _ _)).bind fun r => ?_
    refine Touches.ite (Touches.pure _) ((touches_testfsGetInode _).bind fun _ => ?_)
    refine (Touches.of_keeps (keeps_inodeOf _)).bind fun inode => Touches.ite ?_ ?_
    · exact (touches_testfsPutInode _).bind fun _ => Touches.pure _
    · refine (touches_testfsPutInode _).bind fun _ => ?_
      have hmove : Touches ∅ (modify fun t => { t with curDir := r.toNat } : FsM Unit) := by
        intro t ht
        obtain ⟨c,hv⟩ := ht.valid
        exact Wlp.modify_iff.mpr (leaves_of_same ht (Valid.moved hv))
      exact hmove.bind fun _ => Touches.pure _
  · exact Touches.pure _

theorem touches_cmdStat (args : List CString) : Touches ∅ (cmdStat args) := by
  rw [cmdStat,cmdStatWith.eq_def]
  split
  · refine (Touches.of_keeps Keeps.get).bind fun s => ?_
    refine (Touches.of_keeps (keeps_testfsDirNameToInodeNr _ _)).bind fun r => ?_
    refine Touches.ite (Touches.pure _) ((touches_testfsGetInode _).bind fun _ => ?_)
    refine (Touches.of_keeps (keeps_inodeOf _)).bind fun inode => ?_
    exact (touches_testfsPutInode _).bind fun _ => Touches.pure _
  · exact Touches.pure _

theorem touches_testfsGetFileInode (d : ℕ) (name : CString) :
    Touches ∅ (testfsGetFileInode d name) := by
  refine (Touches.of_keeps (keeps_testfsDirNameToInodeNr d name)).bind fun r => ?_
  refine Touches.ite (Touches.pure _) ((touches_testfsGetInode _).bind fun _ => ?_)
  refine (Touches.of_keeps (keeps_inodeOf _)).bind fun inode => Touches.ite ?_ (Touches.pure _)
  exact (touches_testfsPutInode _).bind fun _ => Touches.pure _

theorem touches_readFile (i : ℕ) (o : ℤ) (size : ℕ) : Touches ∅ (readFile i o size) := by
  refine (Touches.of_keeps (keeps_inodeOf i)).bind fun inode => ?_
  have hput : ∀ r : Reply, Touches ∅ (do testfsPutInode i; return r : FsM Reply) :=
    fun r => (touches_testfsPutInode i).bind fun _ => Touches.pure r
  refine Touches.ite (hput _) (Touches.ite (hput _) ?_)
  refine (Touches.of_keeps (keeps_testfsReadData i o size)).bind fun r => ?_
  exact (touches_testfsPutInode i).bind fun _ => Touches.ite (Touches.pure _) (Touches.pure _)

theorem touches_cmdRead (args : List CString) : Touches ∅ (cmdRead args) := by
  rw [cmdRead,cmdReadWith.eq_def]
  split
  · split
    · exact Touches.pure _
    · refine Touches.ite (Touches.pure _) ?_
      split
      · exact Touches.pure _
      · refine (Touches.of_keeps Keeps.get).bind fun s => ?_
        refine (touches_testfsGetFileInode _ _).bind fun r => ?_
        cases r with
        | error e => exact Touches.pure _
        | ok i => exact touches_readFile i _ _
  · exact Touches.pure _

theorem touches_cmdFsstat (args : List CString) : Touches ∅ (cmdFsstat args) := by
  rw [cmdFsstat.eq_def]
  split
  · exact (Touches.of_keeps Keeps.get).bind fun s => Touches.pure _
  · exact Touches.pure _

/-- The inode that is found is the one that the name refers to, and that of a file. -/
theorem testfsGetFileInode_leaves (hs : Sound s) (name : CString) :
    Wlp (testfsGetFileInode s.curDir name) s
      (fun r t => Leaves ∅ s t ∧ ∀ i, r = .ok i → NamesFile s name i) := by
  rw [testfsGetFileInode,testfsGetFileInodeWith,Wlp.bind_iff,Wlp.liftM_iff]
  intro r t hr
  obtain rfl := keeps_testfsDirNameToInodeNr s.curDir name s r t hr
  have herror : ∀ (e : ℤ) (i : ℕ), (.error e : Except ℤ ℕ) = .ok i → NamesFile t name i :=
    fun _ _ h => by cases h
  rw [Wlp.ite_iff]
  refine ⟨fun _ => Wlp.pure_iff.mpr ⟨Leaves.refl hs,herror r⟩,fun hpos => ?_⟩
  rw [Wlp.bind_iff]
  refine (touches_testfsGetInode r.toNat t hs).mono fun _ t1 h1 => ?_
  obtain ⟨c,hv⟩ := h1.sound.valid
  rw [Wlp.bind_iff]
  refine (inodeOf_spec hv.stands r.toNat).mono ?_
  rintro inode t2 ⟨rfl,-,hi⟩
  rw [Wlp.ite_iff]
  constructor
  · intro _
    rw [Wlp.bind_iff]
    refine (h1.wlp (touches_testfsPutInode r.toNat)).mono fun _ t3 h3 => ?_
    exact Wlp.pure_iff.mpr ⟨h3,herror _⟩
  · intro hfile
    refine Wlp.pure_iff.mpr ⟨h1,fun i hr' => ?_⟩
    cases hr'
    refine ⟨?_,?_⟩
    · rw [hr,Int.toNat_of_nonneg (not_lt.mp hpos)]
    · have hsame := (h1.others r.toNat (Set.notMem_empty _)).inode
      show ((volume t).inode r.toNat).iType ≠ _
      rwa [← hsame,← hi]

theorem cmdWrite_leaves (hs : Sound s) (args : List CString) :
    Wlp (cmdWrite args) s (fun _ t => Leaves
      {i | ∃ name os buf, args = [name,os,buf] ∧ NamesFile s name i} s t) := by
  rw [cmdWrite,cmdWriteWith.eq_def]
  split
  · rename_i name os buf
    cases ho : strToOffset os with
    | none => exact Wlp.pure_iff.mpr (Leaves.refl hs)
    | some o =>
      simp only
      rw [Wlp.ite_iff]
      refine ⟨fun _ => Wlp.pure_iff.mpr (Leaves.refl hs),fun h0 => ?_⟩
      simp only [Wlp.bind_iff,Wlp.get_iff,monadLift_self]
      refine (testfsGetFileInode_leaves hs name).mono ?_
      rintro r t ⟨h1,hname⟩
      have hsame := fun i => (h1.others i (Set.notMem_empty i)).inode
      replace h1 := h1.mono (Set.empty_subset
        {i | ∃ n o b, [name,os,buf] = [n,o,b] ∧ NamesFile s n i})
      cases r with
      | error e => exact Wlp.pure_iff.mpr h1
      | ok i =>
        have hi := hname i rfl
        have hfile : ¬Directory (volume t) i := by
          rw [Directory,hsame]
          exact hi.2
        simp only [Wlp.bind_iff]
        refine (testfsWriteData_leaves h1.sound buf.1 (not_lt.mp h0) (lt_of_strToOffset ho)
          fun hd => absurd hd hfile).mono fun _ t1 h2 => ?_
        have h3 := h1.trans (h2.mono (Set.singleton_subset_iff.mpr ⟨name,os,buf,rfl,hi⟩))
        refine (h3.wlp ((touches_testfsSyncInode i).mono (Set.empty_subset _))).mono fun _ t2 h4 => ?_
        refine (h4.wlp ((touches_testfsPutInode i).mono (Set.empty_subset _))).mono fun _ t3 h5 => ?_
        exact Wlp.pure_iff.mpr h5
  · exact Wlp.pure_iff.mpr (Leaves.refl hs)

/-- The action is a command to write the file `i`. -/
def WritesTo (s : Testfs) (a : FsSessions.Action) (i : ℕ) : Prop :=
  ∃ name os buf, a = .command .write [name,os,buf] ∧ NamesFile s name i

/-- The inodes that a step may change. -/
def Concerned (s : Testfs) (a : FsSessions.Action) (t : Testfs) : Set ℕ :=
  {j | j = s.curDir ∨ ¬Marked (volume s) j ∨ ¬Marked (volume t) j ∨ WritesTo s a j}

theorem func_leaves (h : Ready s c v E) (hs : Sound s) (cmd : Command) (args : List CString) :
    Wlp (cmd.func args) s (fun _ t => Leaves (Concerned s (.command cmd args) t) s t) := by
  have hfresh : ∀ j, ¬Marked (volume s) j → (volume s).inode j = Dinode.zero := by
    rw [h.valid.stands.volume_eq]
    exact h.tree.unmarked
  have hread : ∀ {m : FsM Reply}, Touches ∅ m →
      Wlp m s (fun _ t => Leaves (Concerned s (.command cmd args) t) s t) :=
    fun hm => (hm s hs).mono fun _ _ ht => ht.mono (Set.empty_subset _)
  have hcreate : ∀ type, Wlp (cmdCreateType type args) s
      (fun _ t => Leaves (Concerned s (.command cmd args) t) s t) := by
    intro type
    refine (cmdCreateType_leaves hs hfresh type args).mono fun _ t ht => ht.mono ?_
    exact Set.insert_subset (.inl rfl) fun j hj => .inr (.inl hj)
  cases cmd with
  | cd => exact hread (touches_cmdCd args)
  | pwd => exact hread (touches_cmdPwd args)
  | ls => exact hread (touches_cmdLsInternal false args)
  | lsr => exact hread (touches_cmdLsInternal true args)
  | create => exact hcreate .file
  | stat => exact hread (touches_cmdStat args)
  | rm =>
    refine (cmdRm_leaves hs args).mono fun _ t ht => ht.mono ?_
    exact Set.insert_subset (.inl rfl) fun j hj => .inr (.inr (.inl hj))
  | mkdir => exact hcreate .dir
  | read => exact hread (touches_cmdRead args)
  | write =>
    refine (cmdWrite_leaves hs args).mono fun _ t ht => ht.mono ?_
    rintro j ⟨name,os,buf,rfl,hj⟩
    exact .inr (.inr (.inr ⟨name,os,buf,rfl,hj⟩))
  | fsstat => exact hread (touches_cmdFsstat args)

/-- What a step leaves alone: all but the current directory, the inodes that are new or gone, and
a file that is written. -/
theorem fsStep_leaves (h : Ready s c v E) (hs : Sound s) {a : FsSessions.Action}
    (hstep : fsStep s a = some t) : Leaves (Concerned s a t) s t := by
  cases a with
  | command cmd args =>
    obtain ⟨⟨r,u⟩,hr,rfl⟩ := Option.map_eq_some_iff.mp hstep
    exact func_leaves h hs cmd args r u hr
  | restart =>
    obtain ⟨dev,ht⟩ := restart_ready h hstep
    obtain rfl := h.valid.stands.volume_eq
    exact leaves_of_same hs ht.valid

end Commands

/-! ## Runs -/

section Runs

variable {s t : Testfs} {c : Memory} {v : Volume} {E : ℕ → List Entry}

theorem sound_blank {m : ℕ} (hm : m ≤ nrBlocks) : Sound (loaded (makeDevice m)) := by
  have hv := valid_blank hm
  refine ⟨⟨_,hv.stands.volume_eq.symm ▸ hv⟩,fun i => ?_⟩
  rw [hv.stands.volume_eq]
  exact tail_zero rfl fun l => ref_zero rfl l

theorem testfsMakeRootDir_sound (hs : Sound s)
    (hfresh : ∀ j, ¬Marked (volume s) j → (volume s).inode j = Dinode.zero) :
    Wlp testfsMakeRootDir s (fun _ t => Sound t) := by
  rw [testfsMakeRootDir,Wlp.bind_iff]
  refine (testfsCreateInode_leaves hs hfresh .dir).mono ?_
  rintro r t ⟨h1,-⟩
  replace h1 := h1.mono (Set.subset_univ _)
  cases r with
  | none => exact Wlp.pure_iff.mpr h1.sound
  | some i =>
    have hrest : Touches Set.univ (do
        let ret ← createContents InodeType.dir i i
        if ret < 0 then do
          testfsRemoveInode i
          return ret
        else do
          testfsSyncInode i
          testfsPutInode i
          return 0 : FsM ℤ) := by
      refine ((touches_createContents .dir i i).mono (Set.subset_univ _)).bind fun ret => ?_
      refine Touches.ite ?_ ?_
      · exact ((touches_testfsRemoveInode i).mono (Set.subset_univ _)).bind fun _ => Touches.pure _
      · refine ((touches_testfsSyncInode i).mono (Set.subset_univ _)).bind fun _ => ?_
        exact ((touches_testfsPutInode i).mono (Set.subset_univ _)).bind fun _ => Touches.pure _
    exact (h1.wlp hrest).mono fun _ _ hu => hu.sound

/-- A new image that is mounted has the volume that the root directory was made in. -/
theorem mktestfs_root {n : ℕ} {dev : Device} (hmake : mktestfs n = some dev)
    (hmount : mount dev = some s) : Ready s ((fresh dev).hold 0) (volume s) rootEntries ∧
      ∃ m r t, m ≤ nrBlocks ∧ testfsMakeRootDir.run (loaded (makeDevice m)) = some (r,t) ∧
        volume t = volume s := by
  have hn : 1 ≤ n ∧ n ≤ 8192 := by
    by_contra hbad
    rw [mktestfs,if_pos (by omega)] at hmake
    cases hmake
  have hm : 0 < n*2^20/blockSize ∧ n*2^20/blockSize ≤ nrBlocks := by
    simp only [blockSize,nrBlocks]
    omega
  have hblank := valid_blank hm.2
  rw [mktestfs,if_neg (by omega)] at hmake
  obtain ⟨s1,h1,hmake⟩ := Option.bind_eq_some_iff.mp hmake
  obtain ⟨⟨r,s2⟩,h2,hmake⟩ := Option.bind_eq_some_iff.mp hmake
  obtain ⟨⟨_,s3⟩,h3,hdev⟩ := Option.bind_eq_some_iff.mp hmake
  obtain rfl := Option.some.inj hdev
  have hinit := testfsInitSuperBlock_formatted (formatted_makeDevice (n*2^20/blockSize))
  obtain rfl := Option.some.inj (hinit.symm.trans h1)
  obtain ⟨w,c,hw,-,htree,hsync,-⟩ := (testfsMakeRootDir_total hblank rfl hm.1 hm.2).wlp r s2 h2
  have hclosed := testfsCloseSuperBlock_valid hw _ s3 h3
  obtain ⟨s',hs',hready⟩ := mount_ready (valid_loaded hclosed hsync) htree hsync
  obtain rfl := Option.some.inj (hs'.symm.trans hmount)
  have hvol := hready.valid.stands.volume_eq
  exact ⟨hvol.symm ▸ hready,_,r,s2,hm.2,h2,hw.stands.volume_eq.trans hvol.symm⟩

/-- A new image is sound when it is mounted. -/
theorem mktestfs_sound {n : ℕ} {dev : Device} (hmake : mktestfs n = some dev)
    (hmount : mount dev = some s) :
    Sound s ∧ Ready s ((fresh dev).hold 0) (volume s) rootEntries := by
  obtain ⟨hready,m,r,t,hm,hrun,hvol⟩ := mktestfs_root hmake hmount
  have hsound := testfsMakeRootDir_sound (sound_blank hm)
    (fun j _ => by rw [volume_makeDevice]; rfl) r t hrun
  exact ⟨⟨⟨_,hready.valid⟩,fun i => hvol ▸ hsound.tail i⟩,hready⟩

theorem sound_of_run {ok : Testfs → FsSessions.Action → Prop} (h : FsRun ok s) :
    Sound s ∧ ∃ c E, Ready s c (volume s) E := by
  obtain ⟨n,dev,s₀,hmake,hmount,hreach⟩ := h
  obtain ⟨hsound,hready⟩ := mktestfs_sound hmake hmount
  refine hreach.invariant (P := fun s => Sound s ∧ ∃ c E, Ready s c (volume s) E)
    ⟨hsound,_,_,hready⟩ ?_
  rintro s a t ⟨hs,c,E,h⟩ - hstep
  obtain ⟨c',w,E',ht⟩ := ready_step h a hstep
  obtain rfl := ht.valid.stands.volume_eq
  exact ⟨(fsStep_leaves h hs hstep).sound,c',E',ht⟩

end Runs

end FsFrames
end OsLabs

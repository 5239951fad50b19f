import Mathlib.Data.BitVec
import Mathlib.Tactic
import OsLabs.Bytes
import OsLabs.Wlp
import OsLabs.Holdings
import OsLabs.FsModel
import OsLabs.FsVolume

/-!
# Block accounting of a volume

An inode refers to data blocks from its slots: ten direct ones, the indirect one, and the
entries of the indirect block. `Accounts v m` says that the used blocks of `v` are exactly the
ones held in `m`, each once, and that all counters agree; in the states between commands `m` is
`ref v`, the references that the inodes really contain. While the blocks of an inode are freed
its entries of `m` are the blocks that are still to be freed.
-/

namespace OsLabs
namespace FsAccounts

open Bytes BitmapModel FsModel FsVolume Holdings

/-- A place of an inode that refers to a data block. -/
inductive Slot
  | direct (k : Fin nrDirectBlocks)
  | indirect
  | entry (k : Fin nrIndirectBlocks)
  deriving DecidableEq, Fintype

/-- The block numbers in the slots of an inode. -/
def ref (v : Volume) (i : ℕ) : Slot → ℕ
  | .direct k => ((v.inode i).iBlockNr k).toNat
  | .indirect => (v.inode i).iIndirect.toNat
  | .entry k => if (v.inode i).iIndirect = 0 then 0
    else (loadInt (v.block (v.inode i).iIndirect.toNat) k.val).toNat

/-- Number of data blocks on the device. -/
abbrev nrBlocks : ℕ := 2^20

/-- The block is a data block that is marked in the free map. -/
def Used (v : Volume) (b : ℕ) : Prop :=
  dataStart ≤ b ∧ b < dataStart + nrBlocks ∧ v.blockUsed (b - dataStart) = true

structure Accounts (v : Volume) (m : ℕ → Slot → ℕ) : Prop where
  balanced : Balanced m (Used v)
  count : ∀ i, (v.inode i).blockCount.toNat = held Finset.univ 0 (m i)
  used : v.usedBlocks.toNat = held (Finset.range nrBlocks) false v.blockUsed
  bound : v.usedBlocks.toNat ≤ v.maxBlocks.toNat
  max : v.maxBlocks.toNat ≤ nrBlocks
  free : ∀ k < nrBlocks, v.blockUsed k = false → v.block (dataStart + k) = fun _ => 0

/-- The slot of a logical block. -/
def slotOf (n : ℕ) : Slot :=
  if n < nrDirectBlocks then .direct (Fin.ofNat nrDirectBlocks n)
  else .entry (Fin.ofNat nrIndirectBlocks (n - nrDirectBlocks))

/-- Number of logical blocks of a file. -/
abbrev nrLogical : ℕ := 2058

/-- The contents of a logical block; holes are zero. -/
def logical (v : Volume) (i n : ℕ) : Region :=
  if n < nrLogical ∧ ref v i (slotOf n) ≠ 0 then v.block (ref v i (slotOf n)) else fun _ => 0

/-- Everything but the inode `i` and its contents is the same. -/
structure Frame (i : ℕ) (v w : Volume) : Prop where
  inode : ∀ j, j ≠ i → w.inode j = v.inode j
  ref : ∀ j, j ≠ i → ref w j = ref v j
  logical : ∀ j, j ≠ i → logical w j = logical v j
  disk : w.disk = v.disk
  inodeUsed : w.inodeUsed = v.inodeUsed
  usedInodes : w.usedInodes = v.usedInodes
  maxBlocks : w.maxBlocks = v.maxBlocks

theorem Frame.refl (i : ℕ) (v : Volume) : Frame i v v :=
  ⟨fun _ _ => rfl,fun _ _ => rfl,fun _ _ => rfl,rfl,rfl,rfl,rfl⟩

theorem Frame.trans {i : ℕ} {u v w : Volume} (h : Frame i u v) (h' : Frame i v w) : Frame i u w :=
  ⟨fun j hj => (h'.inode j hj).trans (h.inode j hj),
    fun j hj => (h'.ref j hj).trans (h.ref j hj),
    fun j hj => (h'.logical j hj).trans (h.logical j hj),h'.disk.trans h.disk,
    h'.inodeUsed.trans h.inodeUsed,h'.usedInodes.trans h.usedInodes,
    h'.maxBlocks.trans h.maxBlocks⟩

/-! ## Numbers of blocks -/

section Numbers

variable {v : Volume} {m : ℕ → Slot → ℕ}

theorem Accounts.range (h : Accounts v m) {i : ℕ} {k : Slot} (hk : m i k ≠ 0) :
    dataStart ≤ m i k ∧ m i k < dataStart + nrBlocks := by
  obtain ⟨h1,h2,-⟩ := h.balanced.used_of_hold hk
  exact ⟨h1,h2⟩

/-- There are at least as many used blocks as slots that refer to one. -/
theorem Accounts.card_le (h : Accounts v m) (S : Finset (ℕ × Slot)) (hS : ∀ p ∈ S, m p.1 p.2 ≠ 0) :
    S.card ≤ v.usedBlocks.toNat := by
  rw [h.used,held]
  refine Finset.card_le_card_of_injOn (fun p => m p.1 p.2 - dataStart) ?_ ?_
  · intro p hp
    obtain ⟨h1,h2,h3⟩ := h.balanced.used_of_hold (hS p hp)
    have hlt : m p.1 p.2 - dataStart < nrBlocks := by omega
    refine Finset.mem_filter.mpr ⟨Finset.mem_range.mpr hlt,?_⟩
    rw [h3]
    exact Bool.noConfusion
  · intro p hp q hq he
    have hp' := (h.range (hS p hp)).1
    have hq' := (h.range (hS q hq)).1
    have heq : m p.1 p.2 = m q.1 q.2 := by
      simp only at he
      omega
    obtain ⟨h1,h2⟩ := h.balanced.unique _ _ _ _ (hS p hp) heq
    exact Prod.ext h1 h2

theorem toInt_eq_toNat {x : BitVec 32} (h : x.toNat ≠ 0 → x.toNat < dataStart + nrBlocks) :
    x.toInt = x.toNat := by
  refine BitVec.toInt_eq_toNat_of_lt ?_
  by_cases h0 : x.toNat = 0
  · rw [h0]
    norm_num
  · have := h h0
    simp only [dataStart,nrBlocks] at this
    omega

theorem toNat_ofInt_block {k : ℕ} (hk : k < nrBlocks) :
    (BitVec.ofInt 32 (dataStart + k : ℕ)).toNat = dataStart + k := by
  rw [BitVec.ofInt_natCast,BitVec.toNat_ofNat]
  simp only [dataStart,nrBlocks] at *
  omega

theorem slotOf_direct {n : ℕ} (hn : n < nrDirectBlocks) :
    slotOf n = .direct (Fin.ofNat nrDirectBlocks n) := by
  rw [slotOf,if_pos hn]

theorem slotOf_entry {n : ℕ} (hn : ¬n < nrDirectBlocks) :
    slotOf n = .entry (Fin.ofNat nrIndirectBlocks (n - nrDirectBlocks)) := by
  rw [slotOf,if_neg hn]

theorem slotOf_ne_indirect (n : ℕ) : slotOf n ≠ .indirect := by
  rw [slotOf]
  split <;> simp

theorem slotOf_inj {n k : ℕ} (hn : n < nrLogical) (hk : k < nrLogical) (h : slotOf n = slotOf k) :
    n = k := by
  rw [slotOf,slotOf] at h
  simp only [nrLogical,nrDirectBlocks,nrIndirectBlocks] at *
  split at h <;> split at h <;>
    simp only [Slot.direct.injEq,Slot.entry.injEq,reduceCtorEq,Fin.ext_iff,Fin.val_ofNat] at h <;>
    omega

end Numbers

/-! ## Taking and giving back a block -/

section Steps

variable {v w : Volume} {m : ℕ → Slot → ℕ}

def Slot.code : Slot → Fin 2059
  | .direct k => ⟨k.val,by have h : k.val < 10 := k.isLt; omega⟩
  | .indirect => 10
  | .entry k => ⟨11 + k.val,by have h : k.val < 2048 := k.isLt; omega⟩

theorem Slot.code_injective : Function.Injective Slot.code := by
  intro a b h
  cases a <;> cases b <;>
    simp only [Slot.code,Fin.ext_iff,Slot.direct.injEq,Slot.entry.injEq,reduceCtorEq] at h ⊢
  · exact h
  · rename_i k
    have hk : k.val < 10 := k.isLt
    simp at h
    omega
  · rename_i k l
    have hk : k.val < 10 := k.isLt
    omega
  · rename_i k
    have hk : k.val < 10 := k.isLt
    simp at h
    omega
  · simp at h
    omega
  · rename_i l k
    have hk : k.val < 10 := k.isLt
    omega
  · simp at h
    omega
  · omega

theorem held_lt (f : Slot → ℕ) : held Finset.univ 0 f < 2060 := by
  have h1 := held_le_card Finset.univ 0 f
  have h2 := Fintype.card_le_of_injective _ Slot.code_injective
  rw [Fintype.card_fin] at h2
  rw [Finset.card_univ] at h1
  omega

theorem toNat_add_one (x : BitVec 32) (h : x.toNat + 1 < 2^32) : (x + 1).toNat = x.toNat + 1 := by
  have h1 : (1 : BitVec 32).toNat = 1 := rfl
  rw [BitVec.toNat_add,h1,Nat.mod_eq_of_lt h]

theorem toNat_sub_one (x : BitVec 32) (h : 0 < x.toNat) : (x - 1).toNat = x.toNat - 1 := by
  have h1 : (1 : BitVec 32).toNat = 1 := rfl
  rw [BitVec.toNat_sub,h1]
  omega

theorem Accounts.take (h : Accounts v m) {i k : ℕ} {l : Slot} (hl : m i l = 0) (hk : k < nrBlocks)
    (hfree : v.blockUsed k = false) (hroom : v.usedBlocks.toNat < v.maxBlocks.toNat)
    (hused : w.blockUsed = Function.update v.blockUsed k true)
    (hblocks : w.usedBlocks = v.usedBlocks + 1) (hmax : w.maxBlocks = v.maxBlocks)
    (hself : (w.inode i).blockCount = (v.inode i).blockCount + 1)
    (hother : ∀ j, j ≠ i → (w.inode j).blockCount = (v.inode j).blockCount)
    (hzero : ∀ k < nrBlocks, w.blockUsed k = false → w.block (dataStart + k) = fun _ => 0) :
    Accounts w (assign m i l (dataStart + k)) := by
  have hb : dataStart + k ≠ 0 := by simp
  have hmaxb := h.max
  have hnr : nrBlocks = 2^20 := rfl
  constructor
  · have hbal := h.balanced.assign hl hb (fun hu : Used v (dataStart + k) => by
      have := hu.2.2
      rw [Nat.add_sub_cancel_left,hfree] at this
      cases this)
    refine ⟨fun b => ?_,hbal.unique⟩
    rw [← hbal.covered b]
    constructor
    · rintro ⟨h1,h2,h3⟩
      by_cases hbk : b - dataStart = k
      · exact Or.inl (by omega)
      · rw [hused,Function.update_of_ne hbk] at h3
        exact Or.inr ⟨h1,h2,h3⟩
    · rintro (rfl | ⟨h1,h2,h3⟩)
      · refine ⟨by omega,by omega,?_⟩
        rw [hused,Nat.add_sub_cancel_left,Function.update_self]
      · refine ⟨h1,h2,?_⟩
        rw [hused]
        by_cases hbk : b - dataStart = k
        · rw [hbk,Function.update_self]
        · rwa [Function.update_of_ne hbk]
  · intro j
    by_cases hj : j = i
    · subst hj
      have hc := h.count j
      have hlt := held_lt (m j)
      rw [assign_row,held_update_of_eq (Finset.mem_univ l) hl hb,hself,
        toNat_add_one _ (by omega),hc]
    · rw [assign_row_of_ne m l _ hj,hother j hj,h.count j]
  · rw [hused,held_update_of_eq (Finset.mem_range.mpr hk) hfree (by simp),hblocks,
      toNat_add_one _ (by omega),h.used]
  · rw [hblocks,hmax,toNat_add_one _ (by omega)]
    omega
  · rw [hmax]
    exact hmaxb
  · exact hzero

theorem Accounts.drop (h : Accounts v m) {i : ℕ} {l : Slot} (hl : m i l ≠ 0)
    (hused : w.blockUsed = Function.update v.blockUsed (m i l - dataStart) false)
    (hblocks : w.usedBlocks = v.usedBlocks - 1) (hmax : w.maxBlocks = v.maxBlocks)
    (hself : (w.inode i).blockCount = (v.inode i).blockCount - 1)
    (hother : ∀ j, j ≠ i → (w.inode j).blockCount = (v.inode j).blockCount)
    (hzero : ∀ k < nrBlocks, w.blockUsed k = false → w.block (dataStart + k) = fun _ => 0) :
    Accounts w (assign m i l 0) := by
  obtain ⟨hr1,hr2,hr3⟩ := h.balanced.used_of_hold hl
  have hmem : m i l - dataStart ∈ Finset.range nrBlocks := Finset.mem_range.mpr (by omega)
  have hheld : held (Finset.range nrBlocks) false w.blockUsed + 1 =
      held (Finset.range nrBlocks) false v.blockUsed := by
    rw [hused]
    exact held_update_of_ne hmem (by rw [hr3]; simp)
  have hub := h.used
  have hsub : w.usedBlocks.toNat = v.usedBlocks.toNat - 1 := by
    rw [hblocks,toNat_sub_one _ (by omega)]
  constructor
  · have hbal := h.balanced.release hl
    refine ⟨fun b => ?_,hbal.unique⟩
    rw [← hbal.covered b]
    constructor
    · rintro ⟨h1,h2,h3⟩
      rw [hused] at h3
      by_cases hbk : b - dataStart = m i l - dataStart
      · rw [hbk,Function.update_self] at h3
        cases h3
      · rw [Function.update_of_ne hbk] at h3
        exact ⟨fun he => hbk (by rw [he]),h1,h2,h3⟩
    · rintro ⟨hne,h1,h2,h3⟩
      refine ⟨h1,h2,?_⟩
      rw [hused,Function.update_of_ne (by omega)]
      exact h3
  · intro j
    by_cases hj : j = i
    · subst hj
      have hc := h.count j
      have hup := held_update_of_ne (f := m j) (Finset.mem_univ l) hl
      rw [assign_row,hself,toNat_sub_one _ (by omega)]
      omega
    · rw [assign_row_of_ne m l _ hj,hother j hj,h.count j]
  · omega
  · have := h.bound
    rw [hmax]
    omega
  · rw [hmax]
    exact h.max
  · exact hzero

theorem Accounts.congr (h : Accounts v m) (hused : w.blockUsed = v.blockUsed)
    (hblocks : w.usedBlocks = v.usedBlocks) (hmax : w.maxBlocks = v.maxBlocks)
    (hcount : ∀ j, (w.inode j).blockCount = (v.inode j).blockCount)
    (hzero : ∀ k < nrBlocks, w.blockUsed k = false → w.block (dataStart + k) = fun _ => 0) :
    Accounts w m := by
  have hU : Used w = Used v := by
    funext b
    rw [Used,Used,hused]
  refine ⟨by rw [hU]; exact h.balanced,fun i => ?_,?_,?_,?_,hzero⟩
  · rw [hcount i,h.count i]
  · rw [hblocks,hused,h.used]
  · rw [hblocks,hmax]
    exact h.bound
  · rw [hmax]
    exact h.max

end Steps

/-! ## References and contents after a change -/

section Frames

variable {v w : Volume}

/-- An inode whose data and blocks stay has the same references and contents. -/
theorem row_congr {j : ℕ} (hi : w.inode j = v.inode j)
    (hb : ∀ l, ref v j l ≠ 0 → w.block (ref v j l) = v.block (ref v j l)) :
    ref w j = ref v j ∧ logical w j = logical v j := by
  have hr : ref w j = ref v j := by
    funext l
    cases l with
    | direct k => simp only [ref,hi]
    | indirect => simp only [ref,hi]
    | entry k =>
      simp only [ref,hi]
      by_cases h0 : (v.inode j).iIndirect = 0
      · simp only [if_pos h0]
      · have hne : ref v j .indirect ≠ 0 := by
          intro hz
          exact h0 (BitVec.eq_of_toNat_eq (by simpa [ref] using hz))
        have hbi := hb .indirect hne
        simp only [ref] at hbi
        simp only [if_neg h0,hbi]
  refine ⟨hr,?_⟩
  funext n
  simp only [logical,hr]
  by_cases hc : n < nrLogical ∧ ref v j (slotOf n) ≠ 0
  · simp only [if_pos hc]
    exact hb _ hc.2
  · simp only [if_neg hc]

/-- A slot that gets a zeroed block does not change the contents. -/
theorem logical_assign {i b : ℕ} {l : Slot} (hold : ref v i l = 0)
    (hr : ref w i = Function.update (ref v i) l b) (hz : w.block b = fun _ => 0)
    (hb : ∀ n, ref v i (slotOf n) ≠ 0 →
      w.block (ref v i (slotOf n)) = v.block (ref v i (slotOf n))) :
    logical w i = logical v i := by
  funext n
  simp only [logical,hr]
  by_cases hn : slotOf n = l
  · rw [hn,Function.update_self,hold,hz]
    simp
  · rw [Function.update_of_ne hn]
    by_cases hc : n < nrLogical ∧ ref v i (slotOf n) ≠ 0
    · simp only [if_pos hc]
      exact hb n hc.2
    · simp only [if_neg hc]

theorem Accounts.ref_ne (h : Accounts v (ref v)) {i : ℕ} {l : Slot} (hl : ref v i l ≠ 0) {j : ℕ}
    {l' : Slot} (hne : ¬(j = i ∧ l' = l)) : ref v j l' ≠ ref v i l := by
  intro he
  obtain ⟨h1,h2⟩ := h.balanced.unique i l j l' hl he.symm
  exact hne ⟨h1.symm,h2.symm⟩

theorem Accounts.ref_ne_free (h : Accounts v (ref v)) {k : ℕ} (hfree : v.blockUsed k = false)
    (j : ℕ) (l : Slot) : ref v j l ≠ dataStart + k := by
  intro he
  have hu := (h.balanced.covered (dataStart + k)).mpr ⟨by simp,j,l,he⟩
  have := hu.2.2
  rw [Nat.add_sub_cancel_left,hfree] at this
  cases this

end Frames

/-! ## Growing a file -/

/-- The inode `i` may have got more blocks, but nothing can be seen of it. -/
structure Grown (i : ℕ) (v w : Volume) : Prop where
  frame : Frame i v w
  logical : logical w i = logical v i
  iType : (w.inode i).iType = (v.inode i).iType
  iSize : (w.inode i).iSize = (v.inode i).iSize

theorem Grown.refl (i : ℕ) (v : Volume) : Grown i v v := ⟨Frame.refl i v,rfl,rfl,rfl⟩

theorem Grown.trans {i : ℕ} {u v w : Volume} (h : Grown i u v) (h' : Grown i v w) : Grown i u w :=
  ⟨h.frame.trans h'.frame,h'.logical.trans h.logical,h'.iType.trans h.iType,
    h'.iSize.trans h.iSize⟩

section Growing

variable {v w : Volume} {i k : ℕ}

/-- What all three ways to take a block have in common: the references of `i` get one more
block, which is free and zeroed, and at most the indirect block of `i` is written. -/
theorem grown_of_assign (h : Accounts v (ref v)) {l : Slot} (hl : ref v i l = 0) (hk : k < nrBlocks)
    (hfree : v.blockUsed k = false) (hroom : v.usedBlocks.toNat < v.maxBlocks.toNat)
    (hused : w.blockUsed = Function.update v.blockUsed k true)
    (hblocks : w.usedBlocks = v.usedBlocks + 1) (hmax : w.maxBlocks = v.maxBlocks)
    (hself : (w.inode i).blockCount = (v.inode i).blockCount + 1)
    (hother : ∀ j, j ≠ i → w.inode j = v.inode j)
    (htype : (w.inode i).iType = (v.inode i).iType)
    (hsize : (w.inode i).iSize = (v.inode i).iSize)
    (hdisk : w.disk = v.disk) (hinodes : w.inodeUsed = v.inodeUsed) (hnodes : w.usedInodes = v.usedInodes)
    (hblock : ∀ b, (b ≠ ref v i .indirect ∨ b = 0) → w.block b = v.block b)
    (hrow : ref w i = Function.update (ref v i) l (dataStart + k)) :
    Accounts w (ref w) ∧ Grown i v w := by
  have hstay : ∀ j l', ¬(j = i ∧ l' = .indirect) → ref v j l' ≠ 0 →
      w.block (ref v j l') = v.block (ref v j l') := by
    intro j l' hne h0
    refine hblock _ ?_
    by_cases hind : ref v i .indirect = 0
    · left
      rw [hind]
      exact h0
    · exact Or.inl (h.ref_ne hind hne)
  have hrows : ∀ j, j ≠ i → ref w j = ref v j ∧ logical w j = logical v j := by
    intro j hj
    exact row_congr (hother j hj) (fun l' h0 => hstay j l' (fun hc => hj hc.1) h0)
  have hzero : ∀ a < nrBlocks, v.blockUsed a = false → w.block (dataStart + a) = fun _ => 0 := by
    intro a ha hva
    rw [hblock _ (Or.inl (h.ref_ne_free hva i .indirect).symm)]
    exact h.free a ha hva
  have href : ref w = assign (ref v) i l (dataStart + k) := by
    funext j
    by_cases hj : j = i
    · subst hj
      rw [hrow,assign_row]
    · rw [(hrows j hj).1,assign_row_of_ne _ _ _ hj]
  constructor
  · rw [href]
    refine h.take hl hk hfree hroom hused hblocks hmax hself
      (fun j hj => by rw [hother j hj]) ?_
    intro a ha hwa
    refine hzero a ha ?_
    rw [hused] at hwa
    by_cases hak : a = k
    · rw [hak,Function.update_self] at hwa
      cases hwa
    · rwa [Function.update_of_ne hak] at hwa
  · refine ⟨⟨hother,fun j hj => (hrows j hj).1,fun j hj => (hrows j hj).2,hdisk,hinodes,hnodes,
      hmax⟩,?_,htype,hsize⟩
    refine logical_assign hl hrow (hzero k hk hfree) ?_
    intro n h0
    exact hstay i _ (fun hc => slotOf_ne_indirect n hc.2) h0

theorem ref_eq_zero_iff (i : ℕ) (k : Fin nrDirectBlocks) :
    ref v i (.direct k) = 0 ↔ (v.inode i).iBlockNr k = 0 := by
  simp only [ref]
  constructor
  · intro h
    exact BitVec.eq_of_toNat_eq (by simpa using h)
  · intro h
    rw [h]
    rfl

theorem indirect_eq_zero_iff (i : ℕ) : ref v i .indirect = 0 ↔ (v.inode i).iIndirect = 0 := by
  simp only [ref]
  constructor
  · intro h
    exact BitVec.eq_of_toNat_eq (by simpa using h)
  · intro h
    rw [h]
    rfl

theorem grown_direct (h : Accounts v (ref v)) {kk : Fin nrDirectBlocks} (hl : ref v i (.direct kk) = 0)
    (hk : k < nrBlocks) (hfree : v.blockUsed k = false)
    (hroom : v.usedBlocks.toNat < v.maxBlocks.toNat)
    (hw : w = (v.takeBlock k).setInode i { countUp (v.inode i) with
      iBlockNr := Function.update (v.inode i).iBlockNr kk (BitVec.ofInt 32 (dataStart + k : ℕ)) }) :
    Accounts w (ref w) ∧ Grown i v w ∧
      ref w i = Function.update (ref v i) (.direct kk) (dataStart + k) := by
  have hrow : ref w i = Function.update (ref v i) (.direct kk) (dataStart + k) := by
    funext l
    cases l with
    | direct k' =>
      by_cases hkk : k' = kk
      · subst hkk
        rw [Function.update_self,hw]
        simp only [ref,Volume.setInode_inode_self,Function.update_self]
        exact toNat_ofInt_block hk
      · rw [Function.update_of_ne (by simpa using hkk),hw]
        simp only [ref,Volume.setInode_inode_self,Function.update_of_ne hkk]
    | indirect =>
      rw [Function.update_of_ne (by simp),hw]
      simp only [ref,Volume.setInode_inode_self,countUp]
    | entry k' =>
      rw [Function.update_of_ne (by simp),hw]
      simp only [ref,Volume.setInode_inode_self,countUp,Volume.setInode_block,
        Volume.takeBlock_block]
  have hg := grown_of_assign (w := w) h hl hk hfree hroom (by rw [hw]; rfl) (by rw [hw]; rfl)
    (by rw [hw]; rfl) (by rw [hw]; simp [countUp])
    (fun j hj => by rw [hw,Volume.setInode_inode_of_ne _ _ _ hj]; rfl) (by rw [hw]; simp [countUp])
    (by rw [hw]; simp [countUp]) (by rw [hw]; rfl) (by rw [hw]; rfl) (by rw [hw]; rfl)
    (fun b _ => by rw [hw]; rfl) hrow
  exact ⟨hg.1,hg.2,hrow⟩

/-- An indirect block is allocated; it is zeroed, so it has no entries. -/
theorem grown_indirect (h : Accounts v (ref v)) (hl : ref v i .indirect = 0)
    (hk : k < nrBlocks) (hfree : v.blockUsed k = false)
    (hroom : v.usedBlocks.toNat < v.maxBlocks.toNat)
    (hw : w = (v.takeBlock k).setInode i { countUp (v.inode i) with
      iIndirect := BitVec.ofInt 32 (dataStart + k : ℕ) }) :
    Accounts w (ref w) ∧ Grown i v w ∧
      ref w i = Function.update (ref v i) .indirect (dataStart + k) := by
  have hnat : (BitVec.ofInt 32 (dataStart + k : ℕ)).toNat = dataStart + k := toNat_ofInt_block hk
  have hrow : ref w i = Function.update (ref v i) .indirect (dataStart + k) := by
    funext l
    cases l with
    | direct k' =>
      rw [Function.update_of_ne (by simp),hw]
      simp only [ref,Volume.setInode_inode_self,countUp]
    | indirect =>
      rw [Function.update_self,hw]
      simp only [ref,Volume.setInode_inode_self]
      exact hnat
    | entry k' =>
      rw [Function.update_of_ne (by simp),hw]
      have hold : ref v i (.entry k') = 0 := by
        simp only [ref,if_pos ((indirect_eq_zero_iff i).mp hl)]
      rw [hold]
      simp only [ref,Volume.setInode_inode_self,Volume.setInode_block,Volume.takeBlock_block,hnat,
        h.free k hk hfree,loadInt_zero]
      simp
  have hg := grown_of_assign (w := w) h hl hk hfree hroom (by rw [hw]; rfl) (by rw [hw]; rfl)
    (by rw [hw]; rfl) (by rw [hw]; simp [countUp])
    (fun j hj => by rw [hw,Volume.setInode_inode_of_ne _ _ _ hj]; rfl) (by rw [hw]; simp [countUp])
    (by rw [hw]; simp [countUp]) (by rw [hw]; rfl) (by rw [hw]; rfl) (by rw [hw]; rfl)
    (fun b _ => by rw [hw]; rfl) hrow
  exact ⟨hg.1,hg.2,hrow⟩

/-- A block is allocated for an entry of the indirect block. -/
theorem grown_entry (h : Accounts v (ref v)) {kk : Fin nrIndirectBlocks}
    (hind : ref v i .indirect ≠ 0) (hl : ref v i (.entry kk) = 0)
    (hk : k < nrBlocks) (hfree : v.blockUsed k = false)
    (hroom : v.usedBlocks.toNat < v.maxBlocks.toNat)
    (hw : w = ((v.takeBlock k).setInode i (countUp (v.inode i))).setBlock (ref v i .indirect)
      (storeInt (v.block (ref v i .indirect)) kk.val (BitVec.ofInt 32 (dataStart + k : ℕ)))) :
    Accounts w (ref w) ∧ Grown i v w ∧
      ref w i = Function.update (ref v i) (.entry kk) (dataStart + k) := by
  have hnat : (BitVec.ofInt 32 (dataStart + k : ℕ)).toNat = dataStart + k := toNat_ofInt_block hk
  have hind' : (v.inode i).iIndirect ≠ 0 := fun h0 => hind ((indirect_eq_zero_iff i).mpr h0)
  have hinode : (w.inode i) = countUp (v.inode i) := by rw [hw]; simp
  have hblk : w.block (v.inode i).iIndirect.toNat =
      storeInt (v.block (v.inode i).iIndirect.toNat) kk.val
        (BitVec.ofInt 32 (dataStart + k : ℕ)) := by
    rw [hw]
    exact Volume.setBlock_block_self ..
  have hrow : ref w i = Function.update (ref v i) (.entry kk) (dataStart + k) := by
    funext l
    cases l with
    | direct k' =>
      rw [Function.update_of_ne (by simp)]
      simp only [ref,hinode,countUp]
    | indirect =>
      rw [Function.update_of_ne (by simp)]
      simp only [ref,hinode,countUp]
    | entry k' =>
      simp only [ref,hinode,countUp,if_neg hind',hblk,loadInt_storeInt]
      by_cases hkk : k' = kk
      · subst hkk
        rw [Function.update_self,if_pos rfl]
        exact hnat
      · have hne : ¬k'.val = kk.val := fun he => hkk (Fin.ext he)
        rw [Function.update_of_ne (by simpa using hkk),if_neg hne]
        simp only [ref,if_neg hind']
  have hg := grown_of_assign (w := w) h hl hk hfree hroom (by rw [hw]; rfl) (by rw [hw]; rfl)
    (by rw [hw]; rfl) (by rw [hinode]; rfl)
    (fun j hj => by rw [hw,Volume.setBlock_inode,Volume.setInode_inode_of_ne _ _ _ hj]; rfl)
    (by rw [hinode]; rfl) (by rw [hinode]; rfl) (by rw [hw]; rfl) (by rw [hw]; rfl)
    (by rw [hw]; rfl) (fun b hb => by
      rw [hw,Volume.setBlock_block_of_ne _ _ _ (by rcases hb with hb | rfl; exacts [hb,hind.symm])]
      rfl) hrow
  exact ⟨hg.1,hg.2,hrow⟩

end Growing

/-! ## Specifications of the block functions -/

section Functions

variable {s : Testfs} {c : Memory} {v : Volume} {i : ℕ}

theorem readPhysical_spec (hs : Stands s c v) (h : Accounts v (ref v)) {n : ℕ} (hn : n < nrLogical) :
    Wlp (readPhysical (ref v i (slotOf n))) s (fun r t =>
      t = s ∧ r.1 = ref v i (slotOf n) ∧ r.2 = logical v i n) := by
  rw [readPhysical,Wlp.ite_iff]
  constructor
  · intro hpos
    have h0 : ref v i (slotOf n) ≠ 0 := by omega
    have hr := (h.range h0).1
    rw [Wlp.bind_iff]
    refine (readBlocks_spec hs (by exact_mod_cast hr)).mono ?_
    rintro r t ⟨rfl,rfl⟩
    refine Wlp.pure_iff.mpr ⟨rfl,rfl,?_⟩
    rw [Int.toNat_natCast,logical,if_pos ⟨hn,h0⟩]
  · intro hz
    have h0 : ref v i (slotOf n) = 0 := by omega
    refine Wlp.pure_iff.mpr ⟨rfl,rfl,?_⟩
    rw [logical,if_neg (fun hc => hc.2 h0)]

theorem Accounts.toInt_direct (h : Accounts v (ref v)) (i : ℕ) (k : Fin nrDirectBlocks) :
    ((v.inode i).iBlockNr k).toInt = ref v i (.direct k) :=
  toInt_eq_toNat (fun h0 => (h.range (k := .direct k) h0).2)

theorem Accounts.toInt_indirect (h : Accounts v (ref v)) (i : ℕ) :
    (v.inode i).iIndirect.toInt = ref v i .indirect :=
  toInt_eq_toNat (fun h0 => (h.range (k := .indirect) h0).2)

theorem Accounts.toInt_entry (h : Accounts v (ref v)) (i : ℕ) (k : Fin nrIndirectBlocks)
    (hind : ref v i .indirect ≠ 0) :
    (loadInt (v.block (ref v i .indirect)) k.val).toInt = ref v i (.entry k) := by
  have h0 : ¬(v.inode i).iIndirect = 0 := fun h0 => hind ((indirect_eq_zero_iff i).mpr h0)
  have he : ref v i (.entry k) = (loadInt (v.block (ref v i .indirect)) k.val).toNat := by
    simp only [ref,if_neg h0]
  rw [he]
  refine toInt_eq_toNat (fun hne => ?_)
  rw [← he] at hne ⊢
  exact (h.range hne).2

/-- `testfs_read_block` reads the logical block, or fails beyond the last one. -/
theorem testfsReadBlock_spec (hs : Stands s c v) (h : Accounts v (ref v)) (i : ℕ) (n : ℤ) :
    Wlp (testfsReadBlock i n) s (fun r t => t = s ∧ 0 ≤ n ∧
      ((nrLogical ≤ n.toNat ∧ r.1 < 0) ∨
        (n.toNat < nrLogical ∧ r.1 = ref v i (slotOf n.toNat) ∧ r.2 = logical v i n.toNat))) := by
  simp only [testfsReadBlock,Wlp.bind_iff,Wlp.guard_iff]
  intro hn
  refine (inodeOf_spec hs i).mono ?_
  rintro inode t ⟨rfl,-,hv⟩
  rw [hv]
  obtain ⟨n,rfl⟩ := Int.eq_ofNat_of_zero_le hn
  simp only [Int.toNat_natCast]
  simp only [nrDirectBlocks,nrIndirectBlocks,nrLogical]
  by_cases h10 : n < 10
  · rw [if_pos (by omega),h.toInt_direct,← slotOf_direct h10]
    refine (readPhysical_spec hs h (show n < nrLogical by simp only [nrLogical]; omega)).mono ?_
    rintro r t' ⟨rfl,h1,h2⟩
    exact ⟨rfl,hn,Or.inr ⟨by omega,h1,h2⟩⟩
  · rw [if_neg (by omega),Wlp.ite_iff]
    constructor
    · intro hbig
      refine Wlp.pure_iff.mpr ⟨rfl,hn,Or.inl ⟨by omega,?_⟩⟩
      simp [Errno.ret]
    · intro hsmall
      have hlog : n < nrLogical := by
        simp only [nrLogical]
        omega
      have hsub : ((n : ℤ) - ((10 : ℕ) : ℤ)).toNat = n - 10 := by omega
      have hkk : (Fin.ofNat nrIndirectBlocks (n - nrDirectBlocks)).val = n - 10 := by
        rw [Fin.val_ofNat]
        simp only [nrIndirectBlocks,nrDirectBlocks]
        omega
      have hslot := slotOf_entry (n := n) (by simp only [nrDirectBlocks]; omega)
      rw [h.toInt_indirect,Wlp.ite_iff]
      constructor
      · intro hpos
        have h0 : ref v i .indirect ≠ 0 := by omega
        rw [Wlp.bind_iff]
        refine (readBlocks_spec hs (by exact_mod_cast (h.range h0).1)).mono ?_
        rintro r t' ⟨rfl,rfl⟩
        have he := h.toInt_entry i (Fin.ofNat nrIndirectBlocks (n - nrDirectBlocks)) h0
        rw [hkk,← hslot] at he
        rw [Int.toNat_natCast,hsub,he]
        refine (readPhysical_spec hs h hlog).mono ?_
        rintro r t'' ⟨rfl,h1,h2⟩
        exact ⟨rfl,hn,Or.inr ⟨hlog,h1,h2⟩⟩
      · intro hz
        have h0 : (v.inode i).iIndirect = 0 := (indirect_eq_zero_iff i).mp (by omega)
        have he : ref v i (slotOf n) = 0 := by
          rw [hslot]
          simp only [ref,if_pos h0]
        have hp := readPhysical_spec (i := i) hs h hlog
        rw [he] at hp
        refine hp.mono ?_
        rintro r t'' ⟨rfl,h1,h2⟩
        rw [he]
        exact ⟨rfl,hn,Or.inr ⟨hlog,h1,h2⟩⟩

/-- There is no room for another block. -/
def Full (v : Volume) : Prop := v.maxBlocks.toNat ≤ v.usedBlocks.toNat

theorem Accounts.full (h : Accounts v (ref v))
    (hf : v.maxBlocks.toNat ≤ v.usedBlocks.toNat ∨ ∀ k < 2^20, v.blockUsed k = true) : Full v := by
  rcases hf with hf | hf
  · exact hf
  · have hall : held (Finset.range nrBlocks) false v.blockUsed = nrBlocks := by
      rw [held_eq_card,Finset.card_range]
      intro k hk
      rw [hf k (Finset.mem_range.mp hk)]
      simp
    rw [Full,h.used,hall]
    exact h.max

/-- The block in a slot of `i` is an old one or lies on the device. -/
def Within (t : Testfs) (i : ℕ) (v w : Volume) (l : Slot) : Prop :=
  ref w i l ≠ 0 → ref w i l = ref v i l ∨ ref w i l < t.dev.size

/-- The volume is left alone, or the file has grown by the logical block `n`. -/
def Allocated (c : Memory) (i n : ℕ) (v : Volume) (r : ℤ × Region) (t : Testfs) : Prop :=
  (r.1 < 0 ∧ Stands t c v ∧ (nrDirectBlocks ≤ n ∨ (Full v ∧ ref v i (slotOf n) = 0))) ∨
    ∃ w, Stands t c w ∧ Accounts w (ref w) ∧ Grown i v w ∧ n < nrLogical ∧
      r.1 = ref w i (slotOf n) ∧ ref w i (slotOf n) ≠ 0 ∧ r.2 = logical v i n ∧
      ∀ l, l ≠ slotOf n → Within t i v w l

/-- Taking a block for an inode and giving it back leaves the volume as it was. -/
theorem take_drop_block (h : Accounts v (ref v)) {k : ℕ} (hk : k < nrBlocks)
    (hfree : v.blockUsed k = false) :
    (((v.takeBlock k).setBlock (dataStart + k) (fun _ => 0)).dropBlock k) = v := by
  have hb : Function.update v.block (dataStart + k) (fun _ => 0) = v.block := by
    rw [← h.free k hk hfree,Function.update_eq_self]
  have hu : Function.update (Function.update v.blockUsed k true) k false = v.blockUsed := by
    rw [Function.update_idem,← hfree,Function.update_eq_self]
  simp only [Volume.takeBlock,Volume.setBlock,Volume.dropBlock,hb,hu,BitVec.add_sub_cancel]

/-- The indirect block that was just allocated is given back. -/
theorem undoIndirect_spec (hm : i ∈ c.dirty) (h : Accounts v (ref v)) {k : ℕ} (hl : ref v i .indirect = 0)
    (hk : k < nrBlocks) (hfree : v.blockUsed k = false)
    (hs : Stands s c ((v.takeBlock k).setInode i { countUp (v.inode i) with
      iIndirect := BitVec.ofInt 32 (dataStart + k : ℕ) })) :
    Wlp (testfsFreeBlockFromInode i (dataStart + k : ℕ)) s (fun _ t =>
      Wlp (modifyDinode i fun d => { d with iIndirect := 0 }) t (fun _ t' => Stands t' c v)) := by
  have hlt : dataStart + k < 2^31 := by
    simp only [dataStart,nrBlocks] at *
    omega
  refine (testfsFreeBlockFromInode_spec hs hm (b := dataStart + k) (by omega) hlt).mono ?_
  rintro _ t ⟨-,-,-,hd,ht⟩
  refine (modifyDinode_spec ht hd _).mono ?_
  rintro _ t' ⟨ht',-⟩
  have hinode : countDown { countUp (v.inode i) with iIndirect := (0 : BitVec 32) } =
      v.inode i := by
    have hi := (indirect_eq_zero_iff i).mp hl
    simp only [countDown,countUp,BitVec.add_sub_cancel]
    rw [← hi]
  have he : ((((v.takeBlock k).setInode i { countUp (v.inode i) with
      iIndirect := BitVec.ofInt 32 (dataStart + k : ℕ) }).setBlock (dataStart + k)
        (fun _ => 0)).dropBlock k).setInode i (v.inode i) = v := by
    conv_rhs => rw [← take_drop_block h hk hfree]
    simp only [Volume.setInode,Volume.takeBlock,Volume.setBlock,Volume.dropBlock,
      Function.update_idem,Function.update_eq_self]
  simp only [Volume.setInode_inode_self,Volume.setInode_setInode,Nat.add_sub_cancel_left] at ht'
  rw [← he]
  convert ht' using 2
  exact hinode.symm

/-- `testfs_allocate_block` from the allocation for the entry on. The volume `u` is the one to
go back to when there is no room. -/
theorem allocateEntry_spec (hm : i ∈ c.dirty) (hs : Stands s c v) (h : Accounts v (ref v)) {u : Volume}
    {kk : Fin nrIndirectBlocks} (hind : ref v i .indirect ≠ 0) {r : Region}
    (hr : r = v.block (ref v i .indirect)) {flag : Bool} (block : Region)
    (hkeep : flag = false → u = v)
    (hback : flag = true → ∀ t, Stands t c v →
      Wlp (testfsFreeBlockFromInode i (ref v i .indirect)) t (fun _ t =>
        Wlp (modifyDinode i fun d => { d with iIndirect := 0 }) t (fun _ t' => Stands t' c u))) :
    Wlp (allocateEntry i kk.val r flag block) s (fun r t =>
      (r.1 < 0 ∧ Stands t c u) ∨
      ∃ w, Stands t c w ∧ Accounts w (ref w) ∧ Grown i v w ∧
        r.1 = ref w i (.entry kk) ∧ ref w i (.entry kk) ≠ 0 ∧ r.2 = block ∧
        ref v i .indirect < t.dev.size ∧ ∀ l, l ≠ .entry kk → ref w i l = ref v i l) := by
  subst hr
  simp only [allocateEntry,Wlp.bind_iff,Wlp.guard_iff]
  intro hzero
  have hl : ref v i (.entry kk) = 0 := by
    have := h.toInt_entry i kk hind
    rw [hzero] at this
    simp at this
    omega
  refine (testfsAllocBlockForInode_spec hs hm).mono ?_
  rintro phy t (⟨hphy,ht,-⟩ | ⟨k,hk,rfl,hfree,hroom,hd,-,ht⟩)
  · refine (inodeOf_spec ht i).mono ?_
    rintro inode t' ⟨rfl,-,hv⟩
    rw [if_neg (by omega),hv,h.toInt_indirect]
    cases flag with
    | false =>
      rw [if_neg (by simp),Wlp.pure_iff,hkeep rfl]
      exact Or.inl ⟨hphy,ht⟩
    | true =>
      rw [if_pos rfl]
      simp only [Wlp.bind_iff]
      refine (hback rfl _ ht).mono ?_
      intro _ t1 h1
      refine h1.mono ?_
      intro _ t2 h2
      exact Wlp.pure_iff.mpr (Or.inl ⟨hphy,h2⟩)
  · refine (inodeOf_spec ht i).mono ?_
    rintro inode t' ⟨rfl,-,hv⟩
    have hi : inode.data.iIndirect.toInt = ref v i .indirect := by
      rw [hv,Volume.setInode_inode_self]
      exact h.toInt_indirect i
    rw [if_pos (by omega),hi]
    simp only [Wlp.bind_iff]
    refine (writeBlocks_spec ht _ (by exact_mod_cast (h.range hind).1)).mono ?_
    rintro _ t2 ⟨h2,hlt⟩
    rw [Int.toNat_natCast] at h2 hlt
    obtain ⟨h3,h4,h5⟩ := grown_entry h hind hl hk hfree hroom rfl
    refine Wlp.pure_iff.mpr (Or.inr ⟨_,h2,h3,h4,?_,?_,rfl,hlt,fun l hl => ?_⟩)
    · rw [h5,Function.update_self]
    · rw [h5,Function.update_self]
      simp
    · rw [h5,Function.update_of_ne hl]

theorem testfsAllocateBlock_spec (hm : i ∈ c.dirty) (hs : Stands s c v) (h : Accounts v (ref v))
    (n : ℤ) :
    Wlp (testfsAllocateBlock i n) s (fun r t => 0 ≤ n ∧ Allocated c i n.toNat v r t) := by
  simp only [testfsAllocateBlock,Wlp.bind_iff,Wlp.guard_iff]
  intro hn
  refine (testfsReadBlock_spec hs h i n).mono ?_
  obtain ⟨n,rfl⟩ := Int.eq_ofNat_of_zero_le hn
  simp only [Int.toNat_natCast]
  rintro ⟨phy,block⟩ t ⟨rfl,-,⟨hbig,hneg⟩ | ⟨hlog,hphy,hblock⟩⟩
  · -- beyond the last logical block
    simp only at hneg ⊢
    rw [if_pos (by omega),Wlp.pure_iff]
    refine ⟨hn,Or.inl ⟨hneg,hs,Or.inl ?_⟩⟩
    simp only [nrLogical,nrDirectBlocks] at *
    omega
  simp only at hphy hblock ⊢
  rw [Wlp.ite_iff]
  constructor
  · -- the block exists
    intro h0
    have hne : ref v i (slotOf n) ≠ 0 := by omega
    exact Wlp.pure_iff.mpr ⟨hn,Or.inr ⟨v,hs,h,Grown.refl i v,hlog,hphy,hne,hblock,
      fun l _ _ => Or.inl rfl⟩⟩
  · intro h0
    have hzero : ref v i (slotOf n) = 0 := by omega
    simp only [Wlp.bind_iff]
    refine (inodeOf_spec hs i).mono ?_
    rintro inode t' ⟨rfl,-,hv⟩
    rw [hv]
    by_cases h10 : n < nrDirectBlocks
    · rw [if_pos (by exact_mod_cast h10)]
      simp only [Wlp.bind_iff,Wlp.guard_iff]
      intro _
      refine (testfsAllocBlockForInode_spec hs hm).mono ?_
      rintro phy' t1 (⟨hphy',ht,hfull⟩ | ⟨k,hk,rfl,hfree,hroom,hd,-,ht⟩)
      · rw [if_neg (by omega),Wlp.pure_iff]
        exact ⟨hn,Or.inl ⟨hphy',ht,Or.inr ⟨h.full hfull,hzero⟩⟩⟩
      · rw [if_pos (by omega),Wlp.bind_iff]
        refine (modifyDinode_spec ht hd _).mono ?_
        rintro _ t2 ⟨h2,-⟩
        rw [Volume.setInode_inode_self,Volume.setInode_setInode] at h2
        rw [slotOf_direct h10] at hzero
        obtain ⟨h3,h4,h5⟩ := grown_direct h hzero hk hfree hroom rfl
        rw [← slotOf_direct h10] at h5
        have h6 := (congrFun h5 (slotOf n)).trans (Function.update_self ..)
        exact Wlp.pure_iff.mpr ⟨hn,Or.inr ⟨_,h2,h3,h4,hlog,congrArg Nat.cast h6.symm,
          h6.trans_ne (by simp),hblock,
          fun l hl _ => Or.inl ((congrFun h5 l).trans (Function.update_of_ne hl ..))⟩⟩
    · have hlt : ¬((n : ℤ) < (nrDirectBlocks : ℤ)) := by exact_mod_cast h10
      have hsub : ((n : ℤ) - (nrDirectBlocks : ℤ)).toNat = n - nrDirectBlocks := by omega
      have hlog' : ¬((nrIndirectBlocks : ℤ) ≤ (n : ℤ) - (nrDirectBlocks : ℤ)) := by
        simp only [nrIndirectBlocks,nrDirectBlocks,nrLogical] at *
        omega
      have hkk : (Fin.ofNat nrIndirectBlocks (n - nrDirectBlocks)).val = n - nrDirectBlocks := by
        rw [Fin.val_ofNat]
        simp only [nrIndirectBlocks,nrDirectBlocks,nrLogical] at *
        omega
      have hslot := slotOf_entry h10
      rw [if_neg hlt,if_neg hlog',hsub,← hkk,Wlp.ite_iff]
      constructor
      · -- there is no indirect block yet
        intro hi0
        have hind := (indirect_eq_zero_iff i).mpr hi0
        rw [Wlp.bind_iff]
        refine (testfsAllocBlockForInode_spec hs hm).mono ?_
        rintro phy' t1 (⟨hphy',ht,hfull⟩ | ⟨k,hk,rfl,hfree,hroom,hd,-,ht⟩)
        · rw [if_pos hphy',Wlp.pure_iff]
          exact ⟨hn,Or.inl ⟨hphy',ht,Or.inr ⟨h.full hfull,hzero⟩⟩⟩
        · rw [if_neg (by omega),Wlp.bind_iff]
          refine (modifyDinode_spec ht hd _).mono ?_
          rintro _ t2 ⟨h2,-⟩
          rw [Volume.setInode_inode_self,Volume.setInode_setInode] at h2
          obtain ⟨h3,h4,h5⟩ := grown_indirect h hind hk hfree hroom rfl
          have h6 := congrFun h5 .indirect
          rw [Function.update_self] at h6
          refine (allocateEntry_spec hm h2 h3 (u := v) (by rw [h6]; simp) ?_ block (by simp)
            ?_).mono ?_
          · rw [h6]
            exact (h.free k hk hfree).symm
          · intro _ t3 ht3
            rw [h6]
            exact undoIndirect_spec hm h hind hk hfree ht3
          · rintro r t3 (⟨hr,ht3⟩ | ⟨w,hw,ha,hg,he1,he2,he3,he4,he5⟩)
            · exact ⟨hn,Or.inl ⟨hr,ht3,Or.inl (by omega)⟩⟩
            · rw [← hslot] at he1 he2 he5
              refine ⟨hn,Or.inr ⟨w,hw,ha,h4.trans hg,hlog,he1,he2,he3.trans hblock,
                fun l hl _ => ?_⟩⟩
              rw [he5 l hl]
              by_cases hli : l = .indirect
              · subst hli
                exact Or.inr he4
              · rw [h5,Function.update_of_ne hli]
                exact Or.inl rfl
      · intro hi0
        have hind : ref v i .indirect ≠ 0 := fun hz => hi0 ((indirect_eq_zero_iff i).mp hz)
        rw [Wlp.bind_iff,h.toInt_indirect]
        refine (readBlocks_spec hs (by exact_mod_cast (h.range hind).1)).mono ?_
        rintro r t1 ⟨rfl,rfl⟩
        rw [Int.toNat_natCast]
        refine (allocateEntry_spec hm hs h (u := v) hind rfl block (fun _ => rfl) (by simp)).mono ?_
        rintro r t3 (⟨hr,ht3⟩ | ⟨w,hw,ha,hg,he1,he2,he3,he4,he5⟩)
        · exact ⟨hn,Or.inl ⟨hr,ht3,Or.inl (by omega)⟩⟩
        · rw [← hslot] at he1 he2 he5
          exact ⟨hn,Or.inr ⟨w,hw,ha,hg,hlog,he1,he2,he3.trans hblock,
            fun l hl _ => Or.inl (he5 l hl)⟩⟩

/-- One logical block of `i` is rewritten, and its size may change. -/
theorem write_block {w : Volume} {n : ℕ} {r : Region} (h : Accounts v (ref v)) (hn : n < nrLogical)
    (h0 : ref v i (slotOf n) ≠ 0) (d : Dinode)
    (hw : w = (v.setBlock (ref v i (slotOf n)) r).setInode i d)
    (hblocks : d.iBlockNr = (v.inode i).iBlockNr) (hind : d.iIndirect = (v.inode i).iIndirect)
    (hcount : d.blockCount = (v.inode i).blockCount) :
    Accounts w (ref w) ∧ Frame i v w ∧ logical w i = Function.update (logical v i) n r ∧
      ref w = ref v := by
  have hself : w.inode i = d := by rw [hw,Volume.setInode_inode_self]
  have hblk : ∀ j l, ¬(j = i ∧ l = slotOf n) → w.block (ref v j l) = v.block (ref v j l) := by
    intro j l hne
    rw [hw]
    exact Volume.setBlock_block_of_ne _ _ _ (h.ref_ne h0 hne)
  have hother : ∀ j, j ≠ i → w.inode j = v.inode j := by
    intro j hj
    rw [hw]
    exact Volume.setInode_inode_of_ne _ _ _ hj
  have hrows : ∀ j, j ≠ i → ref w j = ref v j ∧ logical w j = logical v j := by
    intro j hj
    exact row_congr (hother j hj) (fun l _ => hblk j l (fun hc => hj hc.1))
  have hrow : ref w i = ref v i := by
    funext l
    have hb := hblk i .indirect (fun hc => slotOf_ne_indirect n hc.2.symm)
    cases l with
    | direct k => simp only [ref,hself,hblocks]
    | indirect => simp only [ref,hself,hind]
    | entry k =>
      simp only [ref] at hb
      simp only [ref,hself,hind,hb]
  have href : ref w = ref v := by
    funext j
    by_cases hj : j = i
    · rw [hj,hrow]
    · exact (hrows j hj).1
  refine ⟨?_,⟨hother,fun j hj => (hrows j hj).1,fun j hj => (hrows j hj).2,by rw [hw]; rfl,
    by rw [hw]; rfl,by rw [hw]; rfl,by rw [hw]; rfl⟩,?_,href⟩
  · rw [href]
    refine h.congr (by rw [hw]; rfl) (by rw [hw]; rfl) (by rw [hw]; rfl) ?_ ?_
    · intro j
      by_cases hj : j = i
      · rw [hj,hself,hcount]
      · rw [hother j hj]
    · intro k hk hfree
      have hfree' : v.blockUsed k = false := by
        rw [← hfree,hw]
        rfl
      rw [hw,Volume.setInode_block,
        Volume.setBlock_block_of_ne _ _ _ (h.ref_ne_free hfree' i _).symm]
      exact h.free k hk hfree'
  · funext m
    simp only [logical,hrow]
    by_cases hm : m = n
    · subst hm
      rw [Function.update_self,if_pos ⟨hn,h0⟩,hw]
      exact Volume.setBlock_block_self ..
    · rw [Function.update_of_ne hm]
      simp only [logical]
      by_cases hc : m < nrLogical ∧ ref v i (slotOf m) ≠ 0
      · rw [if_pos hc,if_pos hc]
        exact hblk i _ (fun he => hm (slotOf_inj hc.1 hn he.2))
      · rw [if_neg hc,if_neg hc]

/-- The bytes `buf` were written at the offset `o` of the logical block `n` of `i`. -/
structure Written (i n o : ℕ) (buf : List Byte) (start : ℤ) (v w : Volume) : Prop where
  accounts : Accounts w (ref w)
  frame : Frame i v w
  logical : logical w i = Function.update (logical v i) n (copyIn (logical v i n) o buf)
  iType : (w.inode i).iType = (v.inode i).iType
  iSize : (w.inode i).iSize = if 0 < buf.length then
    BitVec.ofInt 64 (max (v.inode i).iSize.toInt (toInt64 (start + buf.length)))
    else (v.inode i).iSize
  block_lt : n < nrLogical
  offset_le : o + buf.length ≤ blockSize

/-- The inode after a write of `len` bytes. -/
def resized (d : Dinode) (len : ℕ) (start : ℤ) : Dinode :=
  if 0 < len then { d with iSize := BitVec.ofInt 64 (max d.iSize.toInt (toInt64 (start + len))) }
  else d

/-- Only the size is changed by a write. -/
theorem resized_fields (d : Dinode) (len : ℕ) (start : ℤ) :
    (resized d len start).iBlockNr = d.iBlockNr ∧ (resized d len start).iIndirect = d.iIndirect ∧
      (resized d len start).blockCount = d.blockCount ∧ (resized d len start).iType = d.iType := by
  rw [resized]
  split <;> exact ⟨rfl,rfl,rfl,rfl⟩

/-- `testfs_write_data` fails without an effect, or writes its buffer. -/
theorem testfsWriteData_spec (hm : i ∈ c.dirty) (hs : Stands s c v) (h : Accounts v (ref v))
    (buf : List Byte) (start : ℤ) :
    Wlp (testfsWriteData i buf start) s (fun r t =>
      (r < 0 ∧ Stands t c v ∧ (blockSize < toSize (start.tmod blockSize + buf.length) ∨
        nrDirectBlocks ≤ (toInt32 (start.tdiv blockSize)).toNat ∨
        (Full v ∧ ref v i (slotOf (toInt32 (start.tdiv blockSize)).toNat) = 0))) ∨
      ∃ w, r = buf.length ∧ Stands t c w ∧ 0 ≤ toInt32 (start.tdiv blockSize) ∧
        0 ≤ start.tmod blockSize ∧ Written i (toInt32 (start.tdiv blockSize)).toNat
          (start.tmod blockSize).toNat buf start v w ∧ ∀ l, Within t i v w l) := by
  simp only [testfsWriteData]
  rw [Wlp.ite_iff]
  constructor
  · intro hbig
    exact Wlp.pure_iff.mpr (Or.inl ⟨by simp [Errno.ret],hs,Or.inl hbig⟩)
  · intro _
    rw [Wlp.bind_iff]
    refine (testfsAllocateBlock_spec hm hs h _).mono ?_
    rintro ⟨r,block⟩ t ⟨hn,⟨hr,ht,hreason⟩ | ⟨w,hw,ha,hg,hlog,hr,h0,hblock,hin⟩⟩
    · simp only at hr ⊢
      rw [if_pos hr,Wlp.pure_iff]
      exact Or.inl ⟨hr,ht,Or.inr hreason⟩
    · simp only at hr hblock ⊢
      subst hr hblock
      rw [if_neg (by omega)]
      simp only [Wlp.bind_iff,Wlp.guard_iff]
      rintro ⟨hix,hsz⟩
      refine (writeBlocks_spec (hw.resize le_rfl) _ (by exact_mod_cast (ha.range h0).1)).mono ?_
      rintro _ t1 ⟨h1,hlt⟩
      rw [Int.toNat_natCast] at h1 hlt
      refine (modifyDirty_spec (h1.resize le_rfl) hm _).mono ?_
      rintro _ t2 ⟨h2,-,-⟩
      obtain ⟨hf1,hf2,hf3,hf4⟩ := resized_fields (w.inode i) buf.length start
      obtain ⟨h3,h4,h5,h6⟩ := write_block ha hlog h0 (resized (w.inode i) buf.length start) rfl
        hf1 hf2 hf3
      have hle : t.dev.size ≤ t1.dev.size := h1.memory.size_le
      have hle' : t1.dev.size ≤ t2.dev.size := h2.memory.size_le
      have h2' : Stands t2 c _ := h2.resize (n := c.size) (hw.memory.size_le.trans (hle.trans hle'))
      have hin' : ∀ l, ref w i l ≠ 0 → ref w i l = ref v i l ∨ ref w i l < t2.dev.size := by
        intro l hl
        by_cases hls : l = slotOf (toInt32 (start.tdiv blockSize)).toNat
        · right
          rw [hls]
          omega
        · rcases hin l hls hl with hold | hnew
          · exact Or.inl hold
          · exact Or.inr (by omega)
      rw [← h6] at hin'
      refine Wlp.pure_iff.mpr (Or.inr ⟨_,rfl,h2',hn,hix,
        ⟨h3,hg.frame.trans h4,?_,?_,?_,hlog,hsz⟩,hin'⟩)
      · rw [hg.logical] at h5
        exact h5
      · rw [Volume.setInode_inode_self,← hg.iType]
        exact hf4
      · rw [Volume.setInode_inode_self,← hg.iSize]
        simp only [Volume.setBlock_inode]
        split <;> rfl

end Functions

end FsAccounts
end OsLabs

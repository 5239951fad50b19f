import Mathlib.Data.BitVec
import Mathlib.Tactic
import OsLabs.Bytes

/-!
# Bitmaps

The arrays of bits of `fs/bitmap.c`, packed in bytes. A failed assertion is `none`. The
specifications at the end speak of the single bits, through `isset`.
-/

namespace OsLabs
namespace BitmapModel

open Bytes

/-- `((WORD_TYPE) 1) << offset`. -/
def mask (offset : ℕ) : Byte := 1#8 <<< offset

structure Bitmap where
  nbits : ℕ
  v : Region

/-- `v[ix] |= 1 << j` for `j` from `offset` on, for `n` rounds. -/
def markOver (w : Byte) : ℕ → ℕ → Byte
  | 0, _ => w
  | n+1, j => markOver (w ||| mask j) n (j+1)

/-- The number of bytes, computed as a `u_int32_t`. -/
def words (nbits : ℕ) : ℕ := (nbits + 7) % 2^32/8

def bitmapCreate (nbits : ℕ) : Bitmap where
  nbits := nbits
  v := if nbits/8 < words nbits then
      Function.update (fun _ => 0) (words nbits - 1)
        (markOver 0 (8 - (nbits - (words nbits - 1)*8)) (nbits - (words nbits - 1)*8))
    else fun _ => 0

/-- The inner loop of `bitmap_alloc`: the first clear bit of a byte. -/
def clearBit (w : Byte) : ℕ → ℕ → Option ℕ
  | 0, _ => none
  | n+1, offset => if w &&& mask offset = 0 then some offset else clearBit w n (offset+1)

/-- The outer loop of `bitmap_alloc`: the index and the new bitmap, `some none` for `-ENOSPC`. -/
def allocFrom (b : Bitmap) : ℕ → ℕ → Option (Option (ℕ × Bitmap))
  | 0, _ => some none
  | n+1, ix =>
    if b.v ix ≠ 0xff then
      match clearBit (b.v ix) 8 0 with
      | none => none
      | some offset =>
        if ix*8 + offset < b.nbits then
          some (some (ix*8 + offset,
            { b with v := Function.update b.v ix (b.v ix ||| mask offset) }))
        else none
    else allocFrom b n (ix+1)

def bitmapAlloc (b : Bitmap) : Option (Option (ℕ × Bitmap)) :=
  allocFrom b (words b.nbits) 0

def bitmapMark (b : Bitmap) (index : ℕ) : Option Bitmap :=
  if index < b.nbits ∧ b.v (index/8) &&& mask (index % 8) = 0 then
    some { b with v := Function.update b.v (index/8) (b.v (index/8) ||| mask (index % 8)) }
  else none

def bitmapUnmark (b : Bitmap) (index : ℕ) : Option Bitmap :=
  if index < b.nbits ∧ b.v (index/8) &&& mask (index % 8) ≠ 0 then
    some { b with v := Function.update b.v (index/8) (b.v (index/8) &&& ~~~mask (index % 8)) }
  else none

def bitmapIsset (b : Bitmap) (index : ℕ) : Bool :=
  b.v (index/8) &&& mask (index % 8) ≠ 0

/-- The loop of `bitmap_nr_allocated` from `i` on, for `n` rounds. The counter is an `int`. -/
def nrFrom (b : Bitmap) : ℕ → ℕ → ℤ → ℤ
  | 0, _, nr => nr
  | n+1, i, nr => nrFrom b n (i+1) (if bitmapIsset b i then (nr+1).bmod (2^32) else nr)

def bitmapNrAllocated (b : Bitmap) : ℤ := nrFrom b b.nbits 0 0

/-! ## Bits -/

theorem mask_eq (k : ℕ) : mask k = BitVec.twoPow 8 k := by
  rw [BitVec.twoPow,mask]

theorem and_mask_eq_zero (w : Byte) {k : ℕ} (hk : k < 8) :
    w &&& mask k = 0 ↔ w.getLsbD k = false := by
  rw [mask_eq,BitVec.and_twoPow]
  cases h : w.getLsbD k with
  | false => simp
  | true =>
    simp only [if_true,Bool.true_eq_false,iff_false]
    intro h0
    have hb := congrArg (fun x : Byte => x.getLsbD k) h0
    simp [hk] at hb

theorem isset_eq (b : Bitmap) (i : ℕ) : bitmapIsset b i = (b.v (i/8)).getLsbD (i % 8) := by
  have hk : i % 8 < 8 := Nat.mod_lt _ (by omega)
  have h := and_mask_eq_zero (b.v (i/8)) hk
  cases hb : (b.v (i/8)).getLsbD (i % 8) with
  | false => simpa [bitmapIsset] using h.mpr hb
  | true =>
    have : ¬(b.v (i/8) &&& mask (i % 8) = 0) := by
      intro h0
      rw [h.mp h0] at hb
      cases hb
    simpa [bitmapIsset] using this

theorem clearBit_some {w : Byte} {n o k : ℕ} (hno : o + n ≤ 8) (h : clearBit w n o = some k) :
    o ≤ k ∧ k < o + n ∧ w.getLsbD k = false ∧ ∀ j, o ≤ j → j < k → w.getLsbD j = true := by
  induction n generalizing o with
  | zero => simp [clearBit] at h
  | succ n ih =>
    rw [clearBit] at h
    have hm := and_mask_eq_zero w (show o < 8 by omega)
    split at h
    · rename_i hc
      cases h
      exact ⟨by omega,by omega,hm.mp hc,fun j h1 h2 => absurd h1 (by omega)⟩
    · rename_i hc
      obtain ⟨h1,h2,h3,h4⟩ := ih (by omega) h
      refine ⟨by omega,by omega,h3,?_⟩
      intro j hj1 hj2
      rcases Nat.eq_or_lt_of_le hj1 with rfl | hlt
      · cases hw : w.getLsbD o with
        | true => rfl
        | false => exact absurd (hm.mpr hw) hc
      · exact h4 j (by omega) hj2

theorem clearBit_none {w : Byte} {n o : ℕ} (hno : o + n ≤ 8) (h : clearBit w n o = none) :
    ∀ j, o ≤ j → j < o + n → w.getLsbD j = true := by
  induction n generalizing o with
  | zero =>
    intro j h1 h2
    omega
  | succ n ih =>
    rw [clearBit] at h
    split at h
    · cases h
    · rename_i hc
      intro j h1 h2
      rcases Nat.eq_or_lt_of_le h1 with rfl | hlt
      · cases hw : w.getLsbD o with
        | true => rfl
        | false => exact absurd ((and_mask_eq_zero w (by omega)).mpr hw) hc
      · exact ih (by omega) h j hlt (by omega)

/-- A byte that is not full has a clear bit. -/
theorem exists_clearBit {w : Byte} (hw : w ≠ 0xff) : ∃ k < 8, clearBit w 8 0 = some k := by
  cases hc : clearBit w 8 0 with
  | none =>
    refine absurd ?_ hw
    have hall : (0xff : Byte) = BitVec.allOnes 8 := rfl
    rw [hall]
    refine BitVec.eq_of_getLsbD_eq fun j hj => ?_
    rw [clearBit_none (by omega) hc j (by omega) (by omega),BitVec.getLsbD_allOnes,
      decide_eq_true hj]
  | some k =>
    obtain ⟨-,hk,-⟩ := clearBit_some (by omega) hc
    exact ⟨k,by omega,rfl⟩

theorem getLsbD_allOnes {w : Byte} (h : w = 0xff) {k : ℕ} (hk : k < 8) : w.getLsbD k = true := by
  subst h
  have : (0xff : Byte) = BitVec.allOnes 8 := rfl
  rw [this,BitVec.getLsbD_allOnes]
  simpa using hk

theorem isset_update_or (b : Bitmap) (ix : ℕ) {o : ℕ} (ho : o < 8) (j : ℕ) :
    bitmapIsset { b with v := Function.update b.v ix (b.v ix ||| mask o) } j =
      (decide (j = ix*8 + o) || bitmapIsset b j) := by
  rw [isset_eq,isset_eq,mask_eq]
  have hj : j % 8 < 8 := Nat.mod_lt _ (by omega)
  by_cases hix : j/8 = ix
  · subst hix
    simp only [Function.update_self,BitVec.getLsbD_or,BitVec.getLsbD_twoPow]
    have hd : decide (j = j/8*8 + o) = (decide (o < 8) && decide (o = j % 8)) := by
      rw [← Bool.decide_and]
      exact decide_eq_decide.mpr (by omega)
    rw [hd,Bool.or_comm]
  · have hne : ¬j = ix*8 + o := by omega
    simp [Function.update_of_ne hix,hne]

theorem isset_update_and (b : Bitmap) (i j : ℕ) :
    bitmapIsset { b with v := Function.update b.v (i/8) (b.v (i/8) &&& ~~~mask (i % 8)) } j =
      (!decide (j = i) && bitmapIsset b j) := by
  rw [isset_eq,isset_eq,mask_eq]
  have hj : j % 8 < 8 := Nat.mod_lt _ (by omega)
  by_cases hix : j/8 = i/8
  · simp only [hix,Function.update_self,BitVec.getLsbD_and,BitVec.getLsbD_not,BitVec.getLsbD_twoPow]
    have hi : i % 8 < 8 := Nat.mod_lt _ (by omega)
    have hd : decide (j = i) = decide (i % 8 = j % 8) := decide_eq_decide.mpr (by omega)
    simp [hd,hj,hi,Bool.and_comm]
  · have hne : ¬j = i := by
      intro h
      exact hix (by rw [h])
    simp [Function.update_of_ne hix,hne]

theorem allocFrom_some {b : Bitmap} {n ix : ℕ} {i : ℕ} {b' : Bitmap}
    (h : allocFrom b n ix = some (some (i,b'))) :
    i < b.nbits ∧ bitmapIsset b i = false ∧ (∀ j, ix*8 ≤ j → j < i → bitmapIsset b j = true) ∧
      b'.nbits = b.nbits ∧ ∀ j, bitmapIsset b' j = (decide (j = i) || bitmapIsset b j) := by
  induction n generalizing ix with
  | zero => simp [allocFrom] at h
  | succ n ih =>
    rw [allocFrom] at h
    split at h
    · split at h
      · cases h
      · rename_i o ho
        split at h
        · rename_i hlt
          obtain ⟨-,h2,h3,h4⟩ := clearBit_some (by omega) ho
          cases h
          have hd : (ix*8 + o)/8 = ix := by omega
          have hm : (ix*8 + o) % 8 = o := by omega
          refine ⟨hlt,by rw [isset_eq,hd,hm]; exact h3,?_,rfl,isset_update_or b ix (by omega)⟩
          intro j hj1 hj2
          have hjd : j/8 = ix := by omega
          rw [isset_eq,hjd]
          exact h4 _ (by omega) (by omega)
        · cases h
    · rename_i hff
      obtain ⟨h1,h2,h3,h4⟩ := ih h
      refine ⟨h1,h2,?_,h4⟩
      intro j hj1 hj2
      by_cases hj : (ix+1)*8 ≤ j
      · exact h3 j hj hj2
      · have hjd : j/8 = ix := by omega
        rw [isset_eq,hjd]
        exact getLsbD_allOnes (not_not.mp hff) (Nat.mod_lt _ (by omega))

theorem allocFrom_none {b : Bitmap} {n ix : ℕ} (h : allocFrom b n ix = some none) :
    ∀ j, ix*8 ≤ j → j < (ix + n)*8 → bitmapIsset b j = true := by
  induction n generalizing ix with
  | zero =>
    intro j h1 h2
    omega
  | succ n ih =>
    rw [allocFrom] at h
    split at h
    · split at h
      · cases h
      · split at h <;> cases h
    · rename_i hff
      intro j h1 h2
      by_cases hj : (ix+1)*8 ≤ j
      · exact ih h j hj (by omega)
      · have hjd : j/8 = ix := by omega
        rw [isset_eq,hjd]
        exact getLsbD_allOnes (not_not.mp hff) (Nat.mod_lt _ (by omega))

/-- `bitmap_alloc` sets the smallest clear bit and nothing else. -/
theorem bitmapAlloc_some {b : Bitmap} {i : ℕ} {b' : Bitmap}
    (h : bitmapAlloc b = some (some (i,b'))) :
    i < b.nbits ∧ bitmapIsset b i = false ∧ (∀ j < i, bitmapIsset b j = true) ∧
      b'.nbits = b.nbits ∧ ∀ j, bitmapIsset b' j = (decide (j = i) || bitmapIsset b j) := by
  obtain ⟨h1,h2,h3,h4⟩ := allocFrom_some h
  exact ⟨h1,h2,fun j hj => h3 j (by omega) hj,h4⟩

/-- `bitmap_alloc` gives up only when every bit is set. -/
theorem bitmapAlloc_none {b : Bitmap} (hb : b.nbits + 7 < 2^32) (h : bitmapAlloc b = some none) :
    ∀ j < b.nbits, bitmapIsset b j = true := by
  intro j hj
  refine allocFrom_none h j (by omega) ?_
  have hw : words b.nbits = (b.nbits + 7)/8 := by rw [words,Nat.mod_eq_of_lt hb]
  omega

/-- The assertion of `bitmap_alloc` holds when the bits fill whole bytes. -/
theorem bitmapAlloc_isSome {b : Bitmap} (h8 : 8 ∣ b.nbits) (hb : b.nbits + 7 < 2^32) :
    (bitmapAlloc b).isSome = true := by
  have hfrom : ∀ n ix, (ix + n)*8 ≤ b.nbits → (allocFrom b n ix).isSome = true := by
    intro n
    induction n with
    | zero => exact fun _ _ => rfl
    | succ n ih =>
      intro ix hle
      rw [allocFrom]
      split
      · rename_i hff
        obtain ⟨k,hk,hclear⟩ := exists_clearBit hff
        simp only [hclear]
        rw [if_pos (by omega)]
        rfl
      · exact ih (ix+1) (by omega)
  refine hfrom (words b.nbits) 0 ?_
  have hw : words b.nbits = (b.nbits + 7)/8 := by rw [words,Nat.mod_eq_of_lt hb]
  omega

/-- `bitmap_unmark` clears a set bit and nothing else. -/
theorem bitmapUnmark_some {b b' : Bitmap} {i : ℕ} (h : bitmapUnmark b i = some b') :
    i < b.nbits ∧ bitmapIsset b i = true ∧ b'.nbits = b.nbits ∧
      ∀ j, bitmapIsset b' j = (!decide (j = i) && bitmapIsset b j) := by
  rw [bitmapUnmark] at h
  split at h
  · rename_i hc
    cases h
    exact ⟨hc.1,by simpa [bitmapIsset] using hc.2,rfl,isset_update_and b i⟩
  · cases h

theorem bitmapUnmark_isSome {b : Bitmap} {i : ℕ} (hi : i < b.nbits) (hset : bitmapIsset b i = true) :
    (bitmapUnmark b i).isSome = true := by
  rw [bitmapUnmark,if_pos ⟨hi,by simpa [bitmapIsset] using hset⟩]
  rfl

end BitmapModel
end OsLabs

import Mathlib.Data.BitVec
import Mathlib.Tactic
import OsLabs.Bytes
import OsLabs.BitmapModel
import OsLabs.IndexPool
import OsLabs.Transition

/-!
# Allocation of bits

A bitmap that was made by `bitmap_create` holds a pool of indices: its bits below `nbits` are the
indices in use, and the bits of the last byte behind them stay set. `bitmap_alloc`, `bitmap_mark`
and `bitmap_unmark` are the operations of the pool. `bitmap_nr_allocated` counts the indices in an
`int`, so it is right as long as there are fewer than 2^31 of them.
-/

namespace OsLabs
namespace BitmapAllocation

open Bytes BitmapModel IndexPool Transition

variable {n i : ℕ} {b b' : Bitmap} {P : Pool n}

/-- The bits below the bound are the indices in use, and the padding is set. -/
structure Represents (b : Bitmap) (P : Pool n) : Prop where
  nbits : b.nbits = n
  mem : ∀ j < n, bitmapIsset b j = true ↔ j ∈ P.used
  padding : ∀ j, n ≤ j → j < words n*8 → bitmapIsset b j = true

/-! ### Creation -/

theorem words_eq (hn : n+7 < 2^32) : words n = (n+7)/8 := by rw [words,Nat.mod_eq_of_lt hn]

theorem markOver_getLsbD (w : Byte) (k o : ℕ) (hk : o+k ≤ 8) (j : ℕ) :
    (markOver w k o).getLsbD j = (w.getLsbD j || decide (o ≤ j ∧ j < o+k)) := by
  induction k generalizing w o with
  | zero => simp [markOver,show ¬(o ≤ j ∧ j < o) by omega]
  | succ k ih =>
    rw [markOver,ih _ _ (by omega),mask_eq,BitVec.getLsbD_or,BitVec.getLsbD_twoPow]
    by_cases hj : o = j
    · subst hj
      simp [show o < 8 by omega]
    · have hrest : decide (o+1 ≤ j ∧ j < o+1+k) = decide (o ≤ j ∧ j < o+(k+1)) :=
        decide_eq_decide.mpr (by omega)
      rw [hrest]
      simp [hj]

/-- The assertions of `bitmap_create`. -/
theorem bitmapCreate_asserts (hn : n+7 < 2^32) (h : n/8 < words n) :
    n/8 = words n - 1 ∧ 0 < n - (words n - 1)*8 ∧ n - (words n - 1)*8 < 8 := by
  rw [words_eq hn] at *
  omega

/-- A new bitmap has only the padding set. -/
theorem bitmapCreate_isset (hn : n+7 < 2^32) {j : ℕ} (hj : j < words n*8) :
    bitmapIsset (bitmapCreate n) j = decide (n ≤ j) := by
  rw [isset_eq,bitmapCreate]
  have hzero : ∀ k, (0 : Byte).getLsbD k = false := fun k => by simp
  by_cases hw : n/8 < words n
  · obtain ⟨hd,h0,h8⟩ := bitmapCreate_asserts hn hw
    have hlt : j % 8 < 8 := Nat.mod_lt _ (by omega)
    simp only [if_pos hw]
    by_cases hix : j/8 = words n - 1
    · rw [hix,Function.update_self,markOver_getLsbD _ _ _ (by omega),hzero,Bool.false_or]
      exact decide_eq_decide.mpr (by omega)
    · rw [Function.update_of_ne hix,hzero]
      exact (decide_eq_false (by omega)).symm
  · simp only [if_neg hw]
    rw [hzero]
    exact (decide_eq_false (by omega)).symm

theorem bitmapCreate_represents (hn : n+7 < 2^32) : Represents (bitmapCreate n) (empty n) := by
  have hw := words_eq hn
  refine ⟨rfl,fun j hj => ?_,fun j hj hlt => ?_⟩
  · rw [bitmapCreate_isset hn (by omega)]
    simp [empty,hj]
  · rw [bitmapCreate_isset hn hlt]
    exact decide_eq_true hj

/-! ### The operations -/

theorem Represents.take (h : Represents b P) (hi : i < n) (hn' : b'.nbits = b.nbits)
    (hb : ∀ j, bitmapIsset b' j = (decide (j = i) || bitmapIsset b j)) :
    Represents b' (P.take hi) := by
  refine ⟨hn'.trans h.nbits,fun j hj => ?_,fun j hj hlt => ?_⟩
  · rw [hb,Bool.or_eq_true,h.mem j hj,decide_eq_true_iff]
    exact Finset.mem_insert.symm
  · rw [hb,h.padding j hj hlt,Bool.or_true]

theorem Represents.give (h : Represents b P) (hi : i < n) (hn' : b'.nbits = b.nbits)
    (hb : ∀ j, bitmapIsset b' j = (!decide (j = i) && bitmapIsset b j)) :
    Represents b' (P.give i) := by
  refine ⟨hn'.trans h.nbits,fun j hj => ?_,fun j hj hlt => ?_⟩
  · rw [hb,Bool.and_eq_true,h.mem j hj,Bool.not_eq_true',decide_eq_false_iff_not]
    exact Finset.mem_erase.symm
  · have hne : j ≠ i := by omega
    rw [hb,h.padding j hj hlt,decide_eq_false hne]
    rfl

theorem bitmapMark_some (h : bitmapMark b i = some b') :
    i < b.nbits ∧ bitmapIsset b i = false ∧ b'.nbits = b.nbits ∧
      ∀ j, bitmapIsset b' j = (decide (j = i) || bitmapIsset b j) := by
  rw [bitmapMark] at h
  split at h
  · rename_i hc
    cases h
    refine ⟨hc.1,by simpa [bitmapIsset] using hc.2,rfl,fun j => ?_⟩
    rw [isset_update_or b (i/8) (Nat.mod_lt i (by omega)),Nat.div_add_mod']
  · cases h

theorem bitmapMark_isSome (hi : i < b.nbits) (hclear : bitmapIsset b i = false) :
    (bitmapMark b i).isSome = true := by
  rw [bitmapMark,if_pos ⟨hi,by simpa [bitmapIsset] using hclear⟩]
  rfl

/-- The assertions of `bitmap_alloc` hold, since a clear bit is not in the padding. -/
theorem allocFrom_isSome (h : Represents b P) {k ix : ℕ} (hk : ix+k ≤ words n) :
    (allocFrom b k ix).isSome = true := by
  induction k generalizing ix with
  | zero => rfl
  | succ k ih =>
    rw [allocFrom]
    split
    · rename_i hff
      obtain ⟨o,ho,hclear⟩ := exists_clearBit hff
      obtain ⟨-,-,hbit,-⟩ := clearBit_some (by omega) hclear
      have hin : ix*8+o < b.nbits := by
        by_contra hge
        have hpad := h.padding (ix*8+o) (by rw [← h.nbits]; omega) (by omega)
        rw [isset_eq,show (ix*8+o)/8 = ix by omega,show (ix*8+o) % 8 = o by omega,hbit] at hpad
        cases hpad
      simp only [hclear]
      rw [if_pos hin]
      rfl
    · exact ih (by omega)

/-- `bitmap_alloc` takes the smallest index that is free. -/
theorem bitmapAlloc_least (hn : n+7 < 2^32) (h : Represents b P) :
    (bitmapAlloc b = some none ∧ P.least = none) ∨
      ∃ i b', bitmapAlloc b = some (some (i,b')) ∧ P.least = some i ∧ b'.nbits = b.nbits ∧
        ∀ j, bitmapIsset b' j = (decide (j = i) || bitmapIsset b j) := by
  have hb : b.nbits+7 < 2^32 := h.nbits ▸ hn
  have hsome : (bitmapAlloc b).isSome = true :=
    allocFrom_isSome h (by rw [Nat.zero_add,h.nbits])
  obtain ⟨r,hr⟩ := Option.isSome_iff_exists.mp hsome
  cases r with
  | none =>
    have hall := bitmapAlloc_none hb hr
    rw [h.nbits] at hall
    exact .inl ⟨hr,Pool.least_eq_none.mpr fun j hj => (h.mem j hj).mp (hall j hj)⟩
  | some r =>
    obtain ⟨i,b'⟩ := r
    obtain ⟨hi,hclear,hbelow,hn',hset⟩ := bitmapAlloc_some hr
    rw [h.nbits] at hi
    refine .inr ⟨i,b',hr,Pool.least_eq_some.mpr ⟨hi,fun hm => ?_,fun j hj => ?_⟩,hn',hset⟩
    · rw [(h.mem i hi).mpr hm] at hclear
      cases hclear
    · exact (h.mem j (hj.trans hi)).mp (hbelow j hj)

theorem or_and_not_mask {w : Byte} {o : ℕ} (ho : o < 8) (hclear : w.getLsbD o = false) :
    (w ||| mask o) &&& ~~~mask o = w := by
  refine BitVec.eq_of_getLsbD_eq fun j hj => ?_
  rw [mask_eq,BitVec.getLsbD_and,BitVec.getLsbD_or,BitVec.getLsbD_not,BitVec.getLsbD_twoPow]
  by_cases hoj : o = j
  · subst hoj
    rw [hclear]
    simp [ho]
  · simp [hoj,hj]

/-- `bitmap_alloc` has changed the byte of its index only. -/
theorem allocFrom_eq {k ix : ℕ} (h : allocFrom b k ix = some (some (i,b'))) :
    b' = { b with v := Function.update b.v (i/8) (b.v (i/8) ||| mask (i % 8)) } := by
  induction k generalizing ix with
  | zero => simp [allocFrom] at h
  | succ k ih =>
    rw [allocFrom] at h
    split at h
    · split at h
      · cases h
      · rename_i o ho
        split at h
        · obtain ⟨-,hlt,-⟩ := clearBit_some (by omega) ho
          cases h
          rw [show (ix*8+o)/8 = ix by omega,show (ix*8+o) % 8 = o by omega]
        · cases h
    · exact ih h

theorem bitmapUnmark_alloc (h : bitmapAlloc b = some (some (i,b'))) :
    bitmapUnmark b' i = some b := by
  obtain ⟨hi,hclear,-,hn',hset⟩ := bitmapAlloc_some h
  have hmask : b'.v (i/8) &&& mask (i % 8) ≠ 0 := by
    have hi' : bitmapIsset b' i = true := by simp [hset]
    simpa [bitmapIsset] using hi'
  rw [bitmapUnmark,if_pos ⟨hn' ▸ hi,hmask⟩,allocFrom_eq h]
  rw [isset_eq] at hclear
  simp only [Function.update_self,Function.update_idem]
  rw [or_and_not_mask (Nat.mod_lt i (by omega)) hclear,Function.update_eq_self]

/-! ### The number of the indices -/

theorem nrFrom_eq (h : Represents b P) (k o : ℕ) (hk : o+k = n) (nr : ℕ) :
    nrFrom b k o ((nr : ℤ).bmod (2^32)) =
      ((nr + (P.used.filter (o ≤ ·)).card : ℕ) : ℤ).bmod (2^32) := by
  induction k generalizing o nr with
  | zero =>
    have hempty : P.used.filter (o ≤ ·) = ∅ :=
      Finset.filter_eq_empty_iff.mpr fun j hj => by have := P.below j hj; omega
    rw [nrFrom,hempty,Finset.card_empty,Nat.add_zero]
  | succ k ih =>
    have hsplit : P.used.filter (o ≤ ·) =
        if o ∈ P.used then insert o (P.used.filter (o+1 ≤ ·)) else P.used.filter (o+1 ≤ ·) := by
      split <;>
      · ext j
        simp only [Finset.mem_filter,Finset.mem_insert]
        grind
    have hmem := h.mem o (by omega)
    rw [nrFrom,hsplit]
    by_cases ho : o ∈ P.used
    · have hcard : (insert o (P.used.filter (o+1 ≤ ·))).card = (P.used.filter (o+1 ≤ ·)).card+1 :=
        Finset.card_insert_of_notMem (by simp)
      rw [if_pos (hmem.mpr ho),if_pos ho,hcard,Int.bmod_add_bmod]
      have hnr : ((nr : ℤ)+1).bmod (2^32) = ((nr+1 : ℕ) : ℤ).bmod (2^32) := by push_cast; rfl
      rw [hnr,ih (o+1) (by omega) (nr+1),Nat.add_right_comm,Nat.add_assoc nr]
    · rw [if_neg (fun hset => ho (hmem.mp hset)),if_neg ho,ih (o+1) (by omega) nr]

/-- The counter wraps around at 2^31. -/
theorem bitmapNrAllocated_eq (h : Represents b P) :
    bitmapNrAllocated b = (P.used.card : ℤ).bmod (2^32) := by
  have hall : P.used.filter (0 ≤ ·) = P.used := Finset.filter_true_of_mem fun j _ => Nat.zero_le j
  have hnr := nrFrom_eq h n 0 (Nat.zero_add n) 0
  rw [hall,Nat.zero_add] at hnr
  rw [bitmapNrAllocated,h.nbits]
  exact hnr

theorem bitmapNrAllocated_iff (hn : n+7 < 2^32) (h : Represents b P) :
    bitmapNrAllocated b = P.used.card ↔ P.used.card < 2^31 := by
  have hle : P.used.card+7 < 2^32 := (Nat.add_le_add_right P.card_le 7).trans_lt hn
  rw [bitmapNrAllocated_eq h]
  constructor
  · intro he
    have hlt := Int.bmod_lt (x := (P.used.card : ℤ)) (m := 2^32) (by decide)
    rw [he] at hlt
    omega
  · intro hlt
    exact Int.bmod_eq_of_le (by omega) (by omega)

/-! ## Runs -/

inductive Action
  | alloc
  | mark (index : ℕ)
  | unmark (index : ℕ)

/-- A bitmap, with the indices that were allocated or marked and not unmarked since. -/
structure Session where
  bitmap : Bitmap
  held : Finset ℕ

/-- The session before the first operation. -/
def created (n : ℕ) : Session := ⟨bitmapCreate n,∅⟩

def step (s : Session) : Action → Option Session
  | .alloc => (bitmapAlloc s.bitmap).map fun r => match r with
    | none => s
    | some (i,b) => ⟨b,insert i s.held⟩
  | .mark i => (bitmapMark s.bitmap i).map fun b => ⟨b,insert i s.held⟩
  | .unmark i => (bitmapUnmark s.bitmap i).map fun b => ⟨b,s.held.erase i⟩

/-- Only clear bits are marked, and only set ones are unmarked. -/
def Proper (s : Session) : Action → Prop
  | .alloc => True
  | .mark i => i < s.bitmap.nbits ∧ bitmapIsset s.bitmap i = false
  | .unmark i => i < s.bitmap.nbits ∧ bitmapIsset s.bitmap i = true

instance (s : Session) (a : Action) : Decidable (Proper s a) := match a with
  | .alloc => inferInstanceAs (Decidable True)
  | .mark _ => inferInstanceAs (Decidable (_ ∧ _))
  | .unmark _ => inferInstanceAs (Decidable (_ ∧ _))

/-- What a bitmap of `n` bits gives after any run. -/
structure Correct (n : ℕ) (s : Session) : Prop where
  nbits : s.bitmap.nbits = n
  held : ∀ j, j ∈ s.held ↔ j < n ∧ bitmapIsset s.bitmap j = true
  full : bitmapAlloc s.bitmap = some none ↔ ∀ j < n, bitmapIsset s.bitmap j = true
  least : (∃ j < n, bitmapIsset s.bitmap j = false) → ∃ i b,
    bitmapAlloc s.bitmap = some (some (i,b)) ∧ i < n ∧ bitmapIsset s.bitmap i = false ∧
      (∀ j < i, bitmapIsset s.bitmap j = true) ∧ b.nbits = n ∧
      (∀ j, bitmapIsset b j = (decide (j = i) || bitmapIsset s.bitmap j)) ∧
      bitmapUnmark b i = some s.bitmap
  asserts : ∀ a, Proper s a → step s a ≠ none
  padding : ∀ j, n ≤ j → j < words n*8 → bitmapIsset s.bitmap j = true
  count : bitmapNrAllocated s.bitmap = s.held.card

section Runs

variable {s s' : Session}

/-- A session whose indices are the ones of a pool. -/
def Holds (n : ℕ) (s : Session) : Prop := ∃ P : Pool n, Represents s.bitmap P ∧ P.used = s.held

theorem holds_step {a : Action} (hn : n+7 < 2^32) (h : Holds n s) (hst : step s a = some s') :
    Holds n s' := by
  obtain ⟨P,hP,hheld⟩ := h
  cases a with
  | alloc =>
    obtain ⟨r,hr,he⟩ := Option.map_eq_some_iff.mp hst
    rcases bitmapAlloc_least hn hP with ⟨hfull,-⟩ | ⟨i,b,halloc,hleast,hn',hset⟩
    · obtain rfl := Option.some.inj (hr.symm.trans hfull)
      exact he ▸ ⟨P,hP,hheld⟩
    · obtain rfl := Option.some.inj (hr.symm.trans halloc)
      obtain ⟨hi,-,-⟩ := Pool.least_eq_some.mp hleast
      exact he ▸ ⟨P.take hi,hP.take hi hn' hset,congrArg (insert i) hheld⟩
  | mark i =>
    obtain ⟨b,hb,rfl⟩ := Option.map_eq_some_iff.mp hst
    obtain ⟨hi,-,hn',hset⟩ := bitmapMark_some hb
    rw [hP.nbits] at hi
    exact ⟨P.take hi,hP.take hi hn' hset,congrArg (insert i) hheld⟩
  | unmark i =>
    obtain ⟨b,hb,rfl⟩ := Option.map_eq_some_iff.mp hst
    obtain ⟨hi,-,hn',hset⟩ := bitmapUnmark_some hb
    rw [hP.nbits] at hi
    exact ⟨P.give i,hP.give hi hn' hset,congrArg (Finset.erase · i) hheld⟩

theorem holds_of_reachable (hn : n+7 < 2^32) (h : Reachable (created n) step Proper s) :
    Holds n s :=
  h.invariant (P := Holds n) ⟨empty n,bitmapCreate_represents hn,rfl⟩
    fun _ _ _ hs _ hst => holds_step hn hs hst

theorem step_ne_none {a : Action} (hn : n+7 < 2^32) (h : Holds n s) (ha : Proper s a) :
    step s a ≠ none := by
  obtain ⟨P,hP,-⟩ := h
  cases a with
  | alloc =>
    rcases bitmapAlloc_least hn hP with ⟨hr,-⟩ | ⟨i,b,hr,-⟩ <;> simp [step,hr]
  | mark i =>
    obtain ⟨b,hb⟩ := Option.isSome_iff_exists.mp (bitmapMark_isSome ha.1 ha.2)
    simp [step,hb]
  | unmark i =>
    obtain ⟨b,hb⟩ := Option.isSome_iff_exists.mp (bitmapUnmark_isSome ha.1 ha.2)
    simp [step,hb]

/-- In every run on a bitmap of `n` bits, everything is as it should be if and only if fewer than
2^31 indices are held. -/
theorem bitmap_correct_iff (hn : n+7 < 2^32) (h : Reachable (created n) step Proper s) :
    Correct n s ↔ s.held.card < 2^31 := by
  have hs := holds_of_reachable hn h
  obtain ⟨P,hP,hheld⟩ := id hs
  have hcount := bitmapNrAllocated_iff hn hP
  rw [hheld] at hcount
  refine ⟨fun hc => hcount.mp hc.count,fun hlt => ?_⟩
  have hmem : ∀ j, j ∈ s.held ↔ j < n ∧ bitmapIsset s.bitmap j = true := by
    intro j
    rw [← hheld]
    constructor
    · exact fun hj => ⟨P.below j hj,(hP.mem j (P.below j hj)).mpr hj⟩
    · exact fun hj => (hP.mem j hj.1).mp hj.2
  refine ⟨hP.nbits,hmem,?_,fun hfree => ?_,fun a ha => step_ne_none hn hs ha,hP.padding,
    hcount.mpr hlt⟩
  · constructor
    · exact fun hnone => hP.nbits ▸ bitmapAlloc_none (hP.nbits.symm ▸ hn) hnone
    · intro hall
      rcases bitmapAlloc_least hn hP with ⟨hfull,-⟩ | ⟨i,b,-,hleast,-⟩
      · exact hfull
      · obtain ⟨hi,hclear,-⟩ := Pool.least_eq_some.mp hleast
        exact absurd ((hP.mem i hi).mp (hall i hi)) hclear
  · obtain ⟨j,hj,hclear⟩ := hfree
    rcases bitmapAlloc_least hn hP with ⟨hfull,-⟩ | ⟨i,b,halloc,-⟩
    · have hset := bitmapAlloc_none (hP.nbits.symm ▸ hn) hfull j (hP.nbits.symm ▸ hj)
      rw [hset] at hclear
      cases hclear
    · obtain ⟨hi,hi',hbelow,hn',hset⟩ := bitmapAlloc_some halloc
      exact ⟨i,b,halloc,hP.nbits ▸ hi,hi',hbelow,hn'.trans hP.nbits,hset,bitmapUnmark_alloc halloc⟩

end Runs

/-! ## Small and large bitmaps -/

/-- After so many calls of `bitmap_alloc` the first indices are held. -/
theorem alloc_run (hn : n+7 < 2^32) {k : ℕ} (hk : k ≤ n) :
    ∃ s, Reachable (created n) step Proper s ∧ s.held = Finset.range k := by
  induction k with
  | zero => exact ⟨_,.init,rfl⟩
  | succ k ih =>
    obtain ⟨s,hs,hheld⟩ := ih (by omega)
    obtain ⟨P,hP,hused⟩ := holds_of_reachable hn hs
    rw [hheld] at hused
    have hleast : P.least = some k :=
      Pool.least_eq_some.mpr ⟨by omega,by simp [hused],fun j hj => by simp [hused,hj]⟩
    rcases bitmapAlloc_least hn hP with ⟨-,hnone⟩ | ⟨i,b,halloc,hi,-⟩
    · exact absurd (hnone.symm.trans hleast) (by simp)
    · obtain rfl := Option.some.inj (hi.symm.trans hleast)
      refine ⟨⟨b,insert i s.held⟩,hs.step .alloc trivial (by simp [step,halloc]),?_⟩
      rw [hheld,Finset.range_add_one]

/-- Two indices are allocated, another one is marked, and one is given back. -/
def allocMarkUnmark : List Action := [.alloc,.alloc,.mark 7,.unmark 0]

theorem allocMarkUnmark_isSome : (exec step allocMarkUnmark (created 12)).isSome = true := by decide

theorem used_bitmap_correct :
    (final step allocMarkUnmark (created 12) allocMarkUnmark_isSome).held = {1,7} ∧
      Correct 12 (final step allocMarkUnmark (created 12) allocMarkUnmark_isSome) := by
  have hrun : Reachable (created 12) step Proper (final step allocMarkUnmark _ _) :=
    reachable_final_of_checked (h := allocMarkUnmark_isSome) (fun _ _ => of_decide_eq_true) .init
      (by decide)
  exact ⟨by decide,(bitmap_correct_iff (by decide) hrun).mpr (by decide)⟩

/-- A bitmap of 2^31 bits, all of them allocated -/
theorem full_bitmap_miscounted : ∃ s, Reachable (created (2^31)) step Proper s ∧
    s.held = Finset.range (2^31) ∧ bitmapNrAllocated s.bitmap = -2^31 ∧ ¬Correct (2^31) s := by
  obtain ⟨s,hs,hheld⟩ := alloc_run (n := 2^31) (by decide) le_rfl
  obtain ⟨P,hP,hused⟩ := holds_of_reachable (by decide) hs
  have hcount : bitmapNrAllocated s.bitmap = -2^31 := by
    rw [bitmapNrAllocated_eq hP,hused,hheld,Finset.card_range]
    decide
  refine ⟨s,hs,hheld,hcount,fun hc => ?_⟩
  have hcard := hc.count
  rw [hcount] at hcard
  omega

end BitmapAllocation
end OsLabs

import Mathlib.Data.BitVec
import Mathlib.Data.Nat.Digits.Lemmas
import Mathlib.Tactic

/-!
# Numbers in decimal

The characters of a number, the highest digit first and without leading zeros, and the value of a
run of digits. A reader that takes the longest run of digits gets back the number that was written,
whatever follows it.
-/

namespace OsLabs
namespace DecimalText

def isDigit (c : BitVec 8) : Bool := 48 ≤ c && c ≤ 57

def digit (d : ℕ) : BitVec 8 := BitVec.ofNat 8 (48+d)

def decimal (n : ℕ) : List (BitVec 8) :=
  if n = 0 then [digit 0] else (Nat.digits 10 n).reverse.map digit

/-- The value of some digits. -/
def value (l : List (BitVec 8)) : ℕ := l.foldl (fun v c => 10*v+(c.toNat-48)) 0

variable {d n k : ℕ} {c : BitVec 8} {rest : List (BitVec 8)}

theorem toNat_digit (h : d < 10) : (digit d).toNat = 48+d := by
  simp [digit]
  omega

theorem isDigit_digit (h : d < 10) : isDigit (digit d) = true := by
  have hd := toNat_digit h
  simp [isDigit,BitVec.le_def,hd]
  omega

theorem foldl_digit (l : List ℕ) (hl : ∀ d ∈ l, d < 10) (v : ℕ) :
    (l.map digit).foldl (fun v c => 10*v+(c.toNat-48)) v = l.foldl (fun v d => 10*v+d) v := by
  induction l generalizing v with
  | nil => rfl
  | cons d l ih =>
    obtain ⟨hd,hl⟩ := List.forall_mem_cons.mp hl
    rw [List.map_cons,List.foldl_cons,List.foldl_cons,toNat_digit hd,Nat.add_sub_cancel_left]
    exact ih hl _

theorem value_decimal (n : ℕ) : value (decimal n) = n := by
  unfold value decimal
  split
  · rename_i hn
    simp [hn,digit]
  · have hlt : ∀ d ∈ (Nat.digits 10 n).reverse, d < 10 := fun d hd =>
      Nat.digits_lt_base (by decide) (List.mem_reverse.mp hd)
    rw [foldl_digit _ hlt,List.foldl_reverse]
    have hval := (Nat.ofDigits_eq_foldr 10 (Nat.digits 10 n)).symm.trans (Nat.ofDigits_digits 10 n)
    simpa [Nat.add_comm] using hval

theorem isDigit_of_mem_decimal (h : c ∈ decimal n) : isDigit c = true := by
  unfold decimal at h
  split at h
  · rw [List.mem_singleton.mp h]
    decide
  · obtain ⟨d,hd,rfl⟩ := List.mem_map.mp h
    exact isDigit_digit (Nat.digits_lt_base (by decide) (List.mem_reverse.mp hd))

theorem decimal_ne_nil (n : ℕ) : decimal n ≠ [] := by
  unfold decimal
  split
  · simp
  · rename_i hn
    simpa using Nat.digits_ne_nil_iff_ne_zero.mpr hn

theorem length_decimal_le (hk : 0 < k) (h : n < 10^k) : (decimal n).length ≤ k := by
  unfold decimal
  split
  · exact hk
  · simpa using (Nat.digits_length_le_iff (by decide) n).mpr h

/-- The longest run of digits is the number, if no digit follows it. -/
theorem takeWhile_decimal (n : ℕ) (h : isDigit c = false) :
    (decimal n ++ c::rest).takeWhile isDigit = decimal n := by
  rw [List.takeWhile_append_of_pos fun a ha => isDigit_of_mem_decimal ha]
  simp [h]

theorem dropWhile_decimal (n : ℕ) (h : isDigit c = false) :
    (decimal n ++ c::rest).dropWhile isDigit = c::rest := by
  rw [List.dropWhile_append_of_pos fun a ha => isDigit_of_mem_decimal ha]
  simp [h]

end DecimalText
end OsLabs

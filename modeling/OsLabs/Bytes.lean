import Mathlib.Data.BitVec
import Mathlib.Data.List.GetD
import Mathlib.Data.List.OfFn
import Mathlib.Tactic

/-!
# Bytes in memory

A region of memory is a function from byte offsets. `copyIn` and `copyOut` are the two
directions of `memcpy`, and `leBytes` and `leValue` the little-endian encoding of numbers; the
lemmas say what is read back after a copy, inside and outside of the copied range.
-/

namespace OsLabs
namespace Bytes

abbrev Byte := BitVec 8

/-- A string of C: no character is 0. -/
abbrev CString := {l : List Byte // 0 ∉ l}

/-- A region of memory, by byte offset. -/
abbrev Region := ℕ → Byte

/-- `memcpy(m + o, l, length l)`. -/
def copyIn (m : Region) (o : ℕ) (l : List Byte) : Region :=
  fun k => if o ≤ k ∧ k < o + l.length then l.getD (k - o) 0 else m k

/-- The bytes that `memcpy(_, m + o, n)` copies. -/
def copyOut (m : Region) (o n : ℕ) : List Byte :=
  (List.range n).map (fun k => m (o + k))

@[simp] theorem length_copyOut (m : Region) (o n : ℕ) : (copyOut m o n).length = n := by
  simp [copyOut]

theorem copyOut_congr {m m' : Region} {o n : ℕ} (h : ∀ k, o ≤ k → k < o + n → m k = m' k) :
    copyOut m o n = copyOut m' o n := by
  apply List.map_congr_left
  intro k hk
  exact h _ (by omega) (by simp only [List.mem_range] at hk; omega)

theorem copyIn_of_mem (m : Region) {o k : ℕ} {l : List Byte} (h1 : o ≤ k) (h2 : k < o + l.length) :
    copyIn m o l k = l.getD (k - o) 0 := by
  simp [copyIn,h1,h2]

theorem copyIn_of_notMem (m : Region) {o k : ℕ} {l : List Byte} (h : ¬(o ≤ k ∧ k < o + l.length)) :
    copyIn m o l k = m k := by
  simp only [copyIn,if_neg h]

theorem copyOut_copyIn_of_disjoint (m : Region) {o a n : ℕ} {l : List Byte}
    (h : a + n ≤ o ∨ o + l.length ≤ a) : copyOut (copyIn m o l) a n = copyOut m a n := by
  apply copyOut_congr
  intro k h1 h2
  exact copyIn_of_notMem m (by omega)

theorem copyOut_copyIn (m : Region) {o a n : ℕ} {l : List Byte} (h : a + n ≤ l.length) :
    copyOut (copyIn m o l) (o + a) n = (l.drop a).take n := by
  apply List.ext_getElem
  · simp; omega
  · intro k h1 h2
    have hk : k < n := by simpa using h1
    simp only [copyOut,List.getElem_map,List.getElem_range,List.getElem_take,List.getElem_drop]
    rw [copyIn_of_mem m (by omega) (by omega)]
    have he : o + a + k - o = a + k := by omega
    rw [he,List.getD_eq_getElem _ _ (by omega)]

/-- `n` bytes of a number, the lowest first. -/
def leBytes : ℕ → ℕ → List Byte
  | 0, _ => []
  | n+1, v => BitVec.ofNat 8 v::leBytes n (v/256)

def leValue : List Byte → ℕ
  | [] => 0
  | b::bs => b.toNat + 256*leValue bs

@[simp] theorem length_leBytes (n v : ℕ) : (leBytes n v).length = n := by
  induction n generalizing v with
  | zero => rfl
  | succ n ih => simp [leBytes,ih]

theorem leValue_leBytes (n v : ℕ) : leValue (leBytes n v) = v % 256^n := by
  induction n generalizing v with
  | zero => simp [leBytes,leValue,Nat.mod_one]
  | succ n ih =>
    have hb : (BitVec.ofNat 8 v).toNat = v % 256 := by simp
    rw [leBytes,leValue,ih,hb,Nat.pow_succ',Nat.mod_mul]

/-- The `w/8`-byte number at an offset. -/
def load (w : ℕ) (m : Region) (o : ℕ) : BitVec w :=
  BitVec.ofNat w (leValue (copyOut m o (w/8)))

/-- The bytes of a number of `w` bits. -/
def stored {w : ℕ} (x : BitVec w) : List Byte :=
  leBytes (w/8) x.toNat

@[simp] theorem length_stored {w : ℕ} (x : BitVec w) : (stored x).length = w/8 := by
  simp [stored]

theorem ofNat_leValue_stored {w : ℕ} (hw : 8 ∣ w) (x : BitVec w) :
    BitVec.ofNat w (leValue (stored x)) = x := by
  obtain ⟨n,rfl⟩ := hw
  have hn : 256^n = 2^(8*n) := by rw [Nat.pow_mul]
  rw [stored,leValue_leBytes,Nat.mul_div_cancel_left n (by omega),hn,
    Nat.mod_eq_of_lt x.isLt,BitVec.ofNat_toNat,BitVec.setWidth_eq]

theorem load_copyIn_of_disjoint {w : ℕ} (m : Region) {o a : ℕ} {l : List Byte}
    (h : a + w/8 ≤ o ∨ o + l.length ≤ a) : load w (copyIn m o l) a = load w m a := by
  rw [load,copyOut_copyIn_of_disjoint m h,load]

/-- Reading a number that was copied in as a part of a longer run of bytes. -/
theorem load_copyIn {w : ℕ} (hw : 8 ∣ w) (m : Region) {o a : ℕ} {l : List Byte} {x : BitVec w}
    (h : a + w/8 ≤ l.length) (hx : (l.drop a).take (w/8) = stored x) :
    load w (copyIn m o l) (o + a) = x := by
  rw [load,copyOut_copyIn m h,hx,ofNat_leValue_stored hw]

theorem load_zero (w o : ℕ) : load w (fun _ => 0) o = 0 := by
  have h : ∀ n, leValue (copyOut (fun _ => 0) o n) = 0 := by
    intro n
    have hr : copyOut (fun _ => 0) o n = List.replicate n 0 := by
      simp [copyOut,List.map_const']
    rw [hr]
    induction n with
    | zero => rfl
    | succ n ih =>
      rw [List.replicate_succ,leValue,ih (by simp [copyOut,List.map_const'])]
      simp
  rw [load,h]
  rfl

/-- The words of an array, at their offsets in its bytes. -/
theorem take_drop_flatMap_stored {w : ℕ} (ws : List (BitVec w)) {k : ℕ} (hk : k < ws.length)
    (rest : List Byte) :
    ((ws.flatMap stored ++ rest).drop (w/8*k)).take (w/8) = stored ws[k] := by
  induction ws generalizing k with
  | nil => simp at hk
  | cons x xs ih =>
    cases k with
    | zero =>
      rw [List.flatMap_cons,List.append_assoc,Nat.mul_zero,List.drop_zero,
        List.take_left' (length_stored x),List.getElem_cons_zero]
    | succ k =>
      have hd : w/8*(k+1) = w/8 + w/8*k := by ring
      rw [List.flatMap_cons,List.append_assoc,hd,← List.drop_drop,
        List.drop_left' (length_stored x),List.getElem_cons_succ]
      exact ih (by simpa using hk)

theorem length_flatMap_stored {w : ℕ} (ws : List (BitVec w)) :
    (ws.flatMap stored).length = w/8*ws.length := by
  induction ws with
  | nil => simp
  | cons x xs ih => rw [List.flatMap_cons,List.length_append,ih,length_stored,List.length_cons]; ring

/-- `((int *)m)[k]`. -/
def loadInt (m : Region) (k : ℕ) : BitVec 32 :=
  load 32 m (4*k)

/-- `((int *)m)[k] = x`. -/
def storeInt (m : Region) (k : ℕ) (x : BitVec 32) : Region :=
  copyIn m (4*k) (stored x)

theorem loadInt_storeInt (m : Region) (k j : ℕ) (x : BitVec 32) :
    loadInt (storeInt m k x) j = if j = k then x else loadInt m j := by
  split
  · rename_i h
    subst h
    have := load_copyIn (w := 32) (by norm_num) m (o := 4*j) (a := 0) (l := stored x) (x := x)
      (by simp) (by rw [List.drop_zero,List.take_of_length_le (by simp)])
    exact this
  · exact load_copyIn_of_disjoint m (by simp only [length_stored]; omega)

theorem loadInt_zero (k : ℕ) : loadInt (fun _ => 0) k = 0 :=
  load_zero 32 (4*k)

theorem zero_notMem_cons {b : Byte} {bs : List Byte} : 0 ∉ b::bs ↔ b ≠ 0 ∧ 0 ∉ bs := by
  rw [List.mem_cons,not_or,eq_comm]

/-- The characters of a buffer up to the terminating 0, if there is one. -/
def toCString : List Byte → Option CString
  | [] => none
  | b::bs =>
    if h : b = 0 then some ⟨[],List.not_mem_nil⟩
    else (toCString bs).map (fun s => ⟨b::s.1,zero_notMem_cons.mpr ⟨h,s.2⟩⟩)

/-- The bytes of a string with its terminator. -/
def CString.bytes (s : CString) : List Byte :=
  s.1 ++ [0]

@[simp] theorem CString.length_bytes (s : CString) : (CString.bytes s).length = s.1.length + 1 := by
  simp [CString.bytes]

theorem toCString_bytes (s : CString) : toCString (CString.bytes s) = some s := by
  obtain ⟨l,hl⟩ := s
  induction l with
  | nil => rfl
  | cons b bs ih =>
    obtain ⟨hb,hbs⟩ := zero_notMem_cons.mp hl
    have h := ih hbs
    simp only [CString.bytes] at h
    simp only [CString.bytes,List.cons_append,toCString,dif_neg hb,h,Option.map_some]

end Bytes
end OsLabs

import OsLabs.Bytes
import OsLabs.CacheModel
import OsLabs.ResponseModel
import OsLabs.Tokens

/-!
# Counting the words of an array

The model of `warmup/wc.c`: `wc_init` copies the array with `strcpy`, cuts the copy into words with
`strtok` and counts them in a chained hash table, whose entries point into the copy; `wc_output`
prints the table. The type `int` is `BitVec 32` where it may overflow. `malloc` fails for a negative
number of pointers only.
-/

namespace OsLabs
namespace WordModel

open Bytes
open CacheModel (bucket)
open ResponseModel (formatInt)

/-- What `strcpy` wrote for a text of `n` characters. The last byte is never overwritten, so that
every string that begins in the copy ends there. -/
structure Copy (n : ℕ) where
  bytes : List Byte
  length_eq : bytes.length = n+1
  last : bytes[n]? = some 0

/-- A pointer into the copy. -/
abbrev Pointer (n : ℕ) := Fin (n+1)

variable {n : ℕ}

def Copy.of (text : List Byte) : Copy text.length := ⟨text ++ [0],by simp,by simp⟩

def Copy.byteAt (m : Copy n) (p : Pointer n) : Byte := m.bytes.getD p 0

/-- The string that `p` points to. -/
def Copy.stringAt (m : Copy n) (p : Pointer n) : CString :=
  ⟨(m.bytes.drop p).takeWhile (· ≠ 0),fun h => by simpa using List.mem_takeWhile_imp h⟩

/-- Writing a 0. -/
def Copy.endAt (m : Copy n) (p : Pointer n) : Copy n where
  bytes := m.bytes.set p 0
  length_eq := by rw [List.length_set,m.length_eq]
  last := by
    have hn : n < m.bytes.length := by rw [m.length_eq]; exact n.lt_succ_self
    rw [List.getElem?_set]
    split
    · rename_i he
      rw [he,if_pos hn]
    · exact m.last

theorem Copy.zero_mem_drop (m : Copy n) (p : Pointer n) : 0 ∈ m.bytes.drop p := by
  have hp := p.isLt
  refine List.mem_iff_getElem?.mpr ⟨n-p,?_⟩
  rw [List.getElem?_drop,Nat.add_sub_cancel' (Nat.le_of_lt_succ hp)]
  exact m.last

/-- Where the longest stretch of bytes with `q` ends that begins at `p`. -/
def Copy.span (m : Copy n) (q : Byte → Bool) (hq : q 0 = false) (p : Pointer n) : Pointer n :=
  ⟨p+((m.bytes.drop p).takeWhile q).length,by
    have hlt := Tokens.length_takeWhile_lt (m.zero_mem_drop p) hq
    rw [List.length_drop,m.length_eq] at hlt
    omega⟩

/-! ### `strtok` -/

def delim : List Byte := [32,9,10,13,11,12]

def isDelim (c : Byte) : Bool := delim.contains c

theorem isDelim_zero : isDelim 0 = false := rfl

/-- The characters that do not end a word. -/
def inWord (c : Byte) : Bool := c ≠ 0 && !isDelim c

theorem inWord_zero : inWord 0 = false := rfl

theorem Copy.lt_of_byteAt {m : Copy n} {p : Pointer n} (h : m.byteAt p ≠ 0) : (p : ℕ)+1 < n+1 := by
  have hp := p.isLt
  have hne : (p : ℕ) ≠ n := fun he => h (by simp [byteAt,he,List.getD_eq_getElem?_getD,m.last])
  omega

/-- `strtok(p, delim)`; for `NULL`, `p` is the pointer that the call before has saved. The results are
the token, the pointer to save and the copy. -/
def strtok (m : Copy n) (p : Pointer n) : Option (Pointer n) × Pointer n × Copy n :=
  let token := m.span isDelim isDelim_zero p
  if m.byteAt token = 0 then (none,token,m)
  else
    let stop := m.span inWord inWord_zero token
    if h : m.byteAt stop = 0 then (some token,stop,m)
    else (some token,⟨stop+1,Copy.lt_of_byteAt h⟩,m.endAt stop)

/-! ### The table -/

structure WordCount (n : ℕ) where
  word : Pointer n
  count : BitVec 32

structure Wc (n : ℕ) where
  size : ℤ
  mapping : ℤ → List (WordCount n)

/-- The loop of `insert_into_wc`, which adds the word behind the last entry if it is in none. -/
def walkChain (m : Copy n) (word : Pointer n) (current : WordCount n) :
    List (WordCount n) → List (WordCount n)
  | [] =>
    if m.stringAt current.word = m.stringAt word then [{ current with count := current.count+1 }]
    else [current,⟨word,1⟩]
  | next::chain =>
    if m.stringAt current.word = m.stringAt word then
      { current with count := current.count+1 }::next::chain
    else current::walkChain m word next chain

/-- `hash_value` and the index are computed as in the web server; `none` stands for a division by 0. -/
def insertIntoWc (m : Copy n) (word : Pointer n) (wc : Wc n) : Option (Wc n) :=
  if wc.size = 0 then none
  else
    let hash := bucket wc.size (m.stringAt word)
    match wc.mapping hash with
    | [] => some { wc with mapping := Function.update wc.mapping hash [⟨word,1⟩] }
    | current::chain =>
      some { wc with mapping := Function.update wc.mapping hash (walkChain m word current chain) }

/-- The loop of `wc_init`; the first argument bounds the number of words. -/
def insertWords : ℕ → Option (Pointer n) × Pointer n × Copy n → Wc n → Option (Copy n × Wc n)
  | _, (none,_,m), wc => some (m,wc)
  | 0, (some _,_,_), _ => none
  | k+1, (some ptr,saved,m), wc => (insertIntoWc m ptr wc).bind (insertWords k (strtok m saved))

/-- How a call of `wc_init` ends. -/
inductive Outcome
  | segfault
  | aborts
  | dividesByZero
  | returns (n : ℕ) (m : Copy n) (wc : Wc n)

/-- What `wc_init` does with the copy. -/
def fill (m : Copy n) (size : ℤ) : Outcome :=
  let wcSize := (BitVec.ofInt 32 (2*size)).toInt
  -- `assert(wc->mapping)`
  if wcSize < 0 then .aborts
  else match insertWords n (strtok m 0) ⟨wcSize,fun _ => []⟩ with
    | none => .dividesByZero
    | some (m,wc) => .returns n m wc

/-- A call of `wc_init`, with the number of bytes that `strcpy` has written. -/
structure Init where
  written : ℕ
  outcome : Outcome

/-- `memory` are the bytes from the beginning of the array to the end of the mapped region. What
`strcpy` writes behind a copy of `size` bytes is taken to do no harm. -/
def wcInit (memory : List Byte) (size : ℤ) : Init :=
  let text := memory.takeWhile (· ≠ 0)
  if text.length < memory.length then ⟨text.length+1,fill (Copy.of text) size⟩
  else ⟨text.length,.segfault⟩

/-! ### The output -/

/-- The words of the table with their counts, in the order of the loops of `wc_output`. -/
def entries (m : Copy n) (wc : Wc n) : List (List Byte × ℤ) :=
  (List.range wc.size.toNat).flatMap fun i : ℕ =>
    (wc.mapping i).map fun curr => ((m.stringAt curr.word).1,curr.count.toInt)

/-- `printf("%s:%d\n", word, count)` -/
def line (word : List Byte) (count : ℤ) : List Byte :=
  word ++ 58::formatInt count ++ [10]

def wcOutput (m : Copy n) (wc : Wc n) : List Byte :=
  (List.range wc.size.toNat).flatMap fun i : ℕ =>
    (wc.mapping i).flatMap fun curr => line (m.stringAt curr.word).1 curr.count.toInt

end WordModel
end OsLabs

import OsLabs.WordCounts

/-!
# What follows the array

`wc_init` is given the length of the array, but copies it with `strcpy`, which goes on to the first
0. So the counts depend on the array only, and the copy is large enough, exactly when there is a 0
in the array.
-/

namespace OsLabs
namespace MappedArray

open Bytes WordModel WordCounts

def table : Outcome → Option (List (List Byte × ℤ))
  | .returns _ m wc => some (entries m wc)
  | _ => none

/-- What follows the array in memory plays no part, and the copy is not written past its end. -/
structure UsesArrayOnly (array : List Byte) : Prop where
  same : ∀ rest rest', table (wcInit (array ++ rest) array.length).outcome =
    table (wcInit (array ++ rest') array.length).outcome
  written : ∀ rest, (wcInit (array ++ rest) array.length).written ≤ array.length

variable {array : List Byte}

theorem wcInit_of_mem (h : 0 ∈ array) : ∃ n < array.length, ∃ o, ∀ rest,
    wcInit (array ++ rest) array.length = ⟨n+1,o⟩ := by
  obtain ⟨text,tail,rfl,htext⟩ := List.eq_append_cons_of_mem h
  refine ⟨text.length,by simp,fill (Copy.of text) (text ++ 0::tail).length,fun rest => ?_⟩
  rw [List.append_assoc,List.cons_append]
  exact wcInit_append htext (tail ++ rest) _

theorem usesArrayOnly_of_mem (h : 0 ∈ array) : UsesArrayOnly array := by
  obtain ⟨n,hn,o,ho⟩ := wcInit_of_mem h
  refine ⟨fun rest rest' => by rw [ho,ho],fun rest => ?_⟩
  rw [ho]
  exact hn

/-- The array is used alone exactly when the terminator is in it. -/
theorem usesArrayOnly_iff (array : List Byte) : UsesArrayOnly array ↔ 0 ∈ array := by
  refine ⟨fun h => ?_,usesArrayOnly_of_mem⟩
  by_contra hno
  have hw := h.written [0]
  rw [wcInit_append hno] at hw
  exact absurd hw (Nat.not_succ_le_self _)

/-- The array `ab` with a 0 behind it, and with a c and a 0. -/
theorem unterminated_not_usesArrayOnly : ¬ UsesArrayOnly [97,98] ∧
    table (wcInit [97,98,0] 2).outcome = some [([97,98],1)] ∧
    table (wcInit [97,98,99,0] 2).outcome = some [([97,98,99],1)] ∧ (wcInit [97,98,0] 2).written = 3 := by
  refine ⟨fun h => ?_,by decide,by decide,by decide⟩
  exact absurd (h.written [0]) (by decide)

theorem table_append {text : List Byte} (size : ℤ) (h : 0 ∉ text) (hlen : text.length < 2^31)
    (h₀ : 0 < size) (hb : size < 2^30) : ∃ es, table (wcInit (text ++ [0]) size).outcome = some es ∧
      ∀ w k, (w,k) ∈ es ↔ w ∈ words text ∧ k = (words text).count w := by
  obtain ⟨n,m,wc,hf,he⟩ := fill_exactCounts h hlen h₀ hb
  exact ⟨entries m wc,by rw [wcInit_append h,hf]; rfl,he.exact⟩

/-- For an array that is not too large, already the counts depend on what follows it. -/
theorem same_table_iff (hne : array ≠ []) (hb : array.length < 2^30) :
    (∀ rest rest', table (wcInit (array ++ rest) array.length).outcome =
      table (wcInit (array ++ rest') array.length).outcome) ↔ 0 ∈ array := by
  refine ⟨fun h => ?_,fun h => (usesArrayOnly_of_mem h).same⟩
  by_contra hno
  have hpos := List.length_pos_iff.mpr hne
  -- a further word is found behind the array
  have hno' : 0 ∉ array ++ [32,97] := by simpa using hno
  obtain ⟨es,hes,hex⟩ := table_append array.length hno (by omega) (by omega) (by omega)
  obtain ⟨es',hes',hex'⟩ := table_append array.length hno' (by simp; omega) (by omega) (by omega)
  have hsame := h [0] [32,97,0]
  rw [List.append_assoc] at hes'
  obtain rfl : es = es' := Option.some.inj (hes.symm.trans (hsame.trans hes'))
  have hwords : words (array ++ [32,97]) = words array ++ [[97]] := by
    have hlast : words [97] = [[97]] := Tokens.tokens_eq_singleton (by decide) (by simp)
    rw [words,Tokens.tokens_append_cons (by decide)]
    exact congrArg (words array ++ ·) hlast
  have hin : [97] ∈ words (array ++ [32,97]) := by rw [hwords]; exact List.mem_concat_self
  have hcount := ((hex [97] _).mp ((hex' [97] _).mpr ⟨hin,rfl⟩)).2
  rw [hwords,List.count_append] at hcount
  simp at hcount

end MappedArray
end OsLabs

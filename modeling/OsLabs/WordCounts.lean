import OsLabs.CacheInvariant
import OsLabs.CountingTable
import OsLabs.WordModel

/-!
# The counts of the words

The words that `wc_init` finds are the tokens of the text: `strtok` writes behind the strings that
it has returned before, so that the entries of the table keep theirs. Every word is in the chain of
its hash, once, and is counted as often as it occurs.
-/

namespace OsLabs
namespace WordCounts

open Bytes WordModel Tokens CountingTable
open CacheModel (bucket)

/-- The maximal runs of characters that are no white space. -/
def words (text : List Byte) : List (List Byte) := tokens isDelim text

variable {n : ℕ} {m m' : Copy n} {p t s w : Pointer n}

/-! ### The copy -/

theorem takeWhile_text {text : List Byte} (h : 0 ∉ text) (rest : List Byte) :
    (text ++ 0::rest).takeWhile (· ≠ 0) = text := by
  have hall : ∀ c ∈ text, (c ≠ 0 : Bool) = true := fun c hc => by
    simpa using fun he : c = 0 => h (he ▸ hc)
  rw [List.takeWhile_append_of_pos hall]
  simp

theorem stringAt_of {text : List Byte} (h : 0 ∉ text) : ((Copy.of text).stringAt 0).1 = text :=
  takeWhile_text h []

theorem drop_span (m : Copy n) (q : Byte → Bool) (hq : q 0 = false) (p : Pointer n) :
    m.bytes.drop (m.span q hq p) = (m.bytes.drop p).dropWhile q := by
  rw [dropWhile_eq_drop,List.drop_drop]
  rfl

theorem drop_eq_cons (m : Copy n) (p : Pointer n) :
    m.bytes.drop p = m.byteAt p::m.bytes.drop (p+1) := by
  have hp : (p : ℕ) < m.bytes.length := by
    rw [m.length_eq]
    exact p.isLt
  rw [List.drop_eq_getElem_cons hp]
  simp [Copy.byteAt,hp]

theorem ne_zero_of {q : Byte → Bool} (hq : q 0 = false) {c : Byte} (hc : q c = true) :
    (c ≠ 0 : Bool) = true := by
  refine decide_eq_true fun he => ?_
  rw [he,hq] at hc
  cases hc

theorem stringAt_of_zero (h : m.byteAt p = 0) : (m.stringAt p).1 = [] := by
  simp [Copy.stringAt,drop_eq_cons,h]

theorem stringAt_of_ne (h : m.byteAt p ≠ 0) :
    (m.stringAt p).1 = m.byteAt p::(m.bytes.drop (p+1)).takeWhile (· ≠ 0) := by
  simp only [Copy.stringAt,drop_eq_cons]
  exact List.takeWhile_cons_of_pos (decide_eq_true h)

/-- Characters are skipped. -/
theorem stringAt_span (m : Copy n) {q : Byte → Bool} (hq : q 0 = false) (p : Pointer n) :
    (m.stringAt (m.span q hq p)).1 = (m.stringAt p).1.dropWhile q := by
  simp only [Copy.stringAt,drop_span]
  exact takeWhile_dropWhile (fun _ hc => ne_zero_of hq hc) _

/-- The stretch that is skipped is one of the string. -/
theorem takeWhile_stringAt (m : Copy n) {q : Byte → Bool} (hq : q 0 = false) (p : Pointer n) :
    (m.stringAt p).1.takeWhile q = (m.bytes.drop p).takeWhile q := by
  rw [Copy.stringAt,List.takeWhile_takeWhile]
  congr 1
  funext c
  cases hc : q c with
  | false => rfl
  | true => rw [ne_zero_of hq hc]; rfl

theorem span_val (m : Copy n) {q : Byte → Bool} (hq : q 0 = false) (p : Pointer n) :
    (m.span q hq p : ℕ) = p+((m.stringAt p).1.takeWhile q).length := by
  rw [takeWhile_stringAt m hq]
  rfl

/-- A 0 is written behind a string. -/
theorem stringAt_endAt_of_lt (h : w+(m.stringAt w).1.length < p) :
    (m.endAt p).stringAt w = m.stringAt w := by
  have hw : ¬ (p : ℕ) < w := by omega
  apply Subtype.ext
  simp only [Copy.stringAt,Copy.endAt,List.drop_set,if_neg hw]
  refine takeWhile_set ?_ 0
  simp only [Copy.stringAt] at h
  omega

/-- A string is cut at the first character without `q`. -/
theorem stringAt_endAt_span (m : Copy n) {q : Byte → Bool} (hq : q 0 = false) (p : Pointer n) :
    ((m.endAt (m.span q hq p)).stringAt p).1 = (m.stringAt p).1.takeWhile q := by
  have hw : ¬ (m.span q hq p : ℕ) < p := by simp [Copy.span]
  have hlt := length_takeWhile_lt (m.zero_mem_drop p) hq
  have hlen : (m.span q hq p : ℕ)-p = ((m.bytes.drop p).takeWhile q).length := by simp [Copy.span]
  simp only [Copy.stringAt,Copy.endAt,List.drop_set,if_neg hw,hlen]
  rw [takeWhile_set_end (fun _ hc => ne_zero_of hq hc) (by simp),if_pos hlt]
  exact (takeWhile_stringAt m hq p).symm

/-- What follows the byte that is overwritten. -/
theorem stringAt_endAt_succ (h : m.byteAt p ≠ 0) {hp : (p : ℕ)+1 < n+1} :
    ((m.endAt p).stringAt ⟨p+1,hp⟩).1 = (m.stringAt p).1.tail := by
  rw [stringAt_of_ne h,List.tail_cons]
  simp only [Copy.stringAt,Copy.endAt,List.drop_set_of_lt p.val.lt_succ_self]

/-! ### `strtok` -/

/-- What a call of `strtok` that begins at `p` and finds a token changes. -/
structure NextToken (m : Copy n) (p t s : Pointer n) (m' : Copy n) : Prop where
  words : words (m.stringAt p).1 = (m'.stringAt t).1::WordCounts.words (m'.stringAt s).1
  before : t+(m'.stringAt t).1.length ≤ s
  after : p ≤ s
  frame : ∀ w : Pointer n, w+(m.stringAt w).1.length ≤ p → m'.stringAt w = m.stringAt w

/-- In a string a word goes up to the next delimiter. -/
theorem inWord_eq {c : Byte} (h : c ∈ (m.stringAt p).1) : inWord c = !isDelim c := by
  have hne : c ≠ 0 := fun he => (m.stringAt p).2 (he ▸ h)
  rw [inWord,decide_eq_true hne,Bool.true_and]

/-- The word that begins at a character that is no delimiter. -/
theorem words_of_ne (hz : m.byteAt t ≠ 0) (hd : isDelim (m.byteAt t) = false) :
    words (m.stringAt t).1 =
      (m.stringAt t).1.takeWhile inWord::words ((m.stringAt t).1.dropWhile inWord).tail := by
  have htake : (m.stringAt t).1.takeWhile inWord = (m.stringAt t).1.takeWhile (!isDelim ·) :=
    takeWhile_congr fun c hc => inWord_eq hc
  have hdrop : (m.stringAt t).1.dropWhile inWord = (m.stringAt t).1.dropWhile (!isDelim ·) :=
    dropWhile_congr fun c hc => inWord_eq hc
  rw [htake,hdrop,stringAt_of_ne hz]
  exact tokens_eq_cons hd _

theorem strtok_none (h : strtok m p = (none,s,m')) : words (m.stringAt p).1 = [] ∧ m' = m := by
  simp only [strtok] at h
  split at h
  · rename_i hz
    have hw := stringAt_of_zero hz
    rw [stringAt_span] at hw
    obtain ⟨-,hm⟩ : _ ∧ m = m' := by simpa using h
    refine ⟨?_,hm.symm⟩
    rw [words,← tokens_dropWhile,hw,tokens_nil]
  · split at h <;> simp at h

theorem strtok_some (h : strtok m p = (some t,s,m')) : NextToken m p t s m' := by
  simp only [strtok] at h
  split at h
  · simp at h
  rename_i hz
  have hskip : words (m.stringAt p).1 = words (m.stringAt (m.span isDelim isDelim_zero p)).1 := by
    rw [words,words,stringAt_span,tokens_dropWhile]
  have hp : p ≤ m.span isDelim isDelim_zero p := Nat.le_add_right _ _
  have hd : isDelim (m.byteAt (m.span isDelim isDelim_zero p)) = false := by
    have hhead := List.head?_dropWhile_not isDelim (m.stringAt p).1
    rw [← stringAt_span m isDelim_zero,stringAt_of_ne hz] at hhead
    simpa using hhead
  generalize m.span isDelim isDelim_zero p = token at *
  have hwords := hskip.trans (words_of_ne hz hd)
  have hstop := span_val m inWord_zero token
  have hrest := stringAt_span m inWord_zero token
  split at h
  · rename_i hend
    obtain ⟨rfl,rfl,rfl⟩ : token = t ∧ m.span inWord inWord_zero token = s ∧ m = m' := by simpa using h
    have hall : (m.stringAt token).1.takeWhile inWord = (m.stringAt token).1 := by
      have hsplit := List.takeWhile_append_dropWhile (p := inWord) (l := (m.stringAt token).1)
      rwa [← hrest,stringAt_of_zero hend,List.append_nil] at hsplit
    rw [hall] at hstop hwords
    refine ⟨?_,hstop.ge,hp.trans (Fin.le_def.mpr ?_),fun _ _ => rfl⟩
    · rw [hwords,← hrest,stringAt_of_zero hend,List.tail_nil]
    · rw [hstop]
      exact Nat.le_add_right _ _
  · rename_i hend
    obtain ⟨rfl,rfl,rfl⟩ : token = t ∧ _ = s ∧ m.endAt (m.span inWord inWord_zero token) = m' := by
      simpa using h
    have htoken := stringAt_endAt_span m inWord_zero token
    have hle := Fin.le_def.mp hp
    have hpos : 0 < ((m.stringAt token).1.takeWhile inWord).length := by
      have hin : inWord (m.byteAt token) = true := by rw [inWord,decide_eq_true hz,hd]; rfl
      rw [stringAt_of_ne hz,List.takeWhile_cons_of_pos hin]
      exact Nat.succ_pos _
    refine ⟨?_,?_,Fin.le_def.mpr ?_,fun w hw => stringAt_endAt_of_lt ?_⟩
    · rw [hwords,htoken,stringAt_endAt_succ hend,hrest]
    · rw [htoken]
      change _ ≤ (m.span inWord inWord_zero token : ℕ)+1
      omega
    · change (p : ℕ) ≤ (m.span inWord inWord_zero token : ℕ)+1
      omega
    · omega

/-! ### The table -/

variable {size : ℤ} {ws : List CString} {wc : Wc n}

/-- The word and the count of an entry. -/
def read (m : Copy n) (e : WordCount n) : CString × ℕ := (m.stringAt e.word,e.count.toNat)

/-- The table counts the words `ws`, which end at the latest where `strtok` goes on. -/
structure Holds (m : Copy n) (saved : Pointer n) (size : ℤ) (ws : List CString) (wc : Wc n) : Prop where
  chains : wc.size = size
  inside : ∀ i, ∀ e ∈ wc.mapping i, e.word+(m.stringAt e.word).1.length ≤ saved
  spread : Spread (bucket size) ws fun i => (wc.mapping i).map (read m)

theorem Holds.count_le (h : Holds m s size ws wc) {i : ℤ} {e : WordCount n} (he : e ∈ wc.mapping i) :
    e.count.toNat ≤ ws.length :=
  ((h.spread i).le_length (List.mem_map_of_mem he)).trans (List.length_filter_le _ _)

/-- The next call of `strtok` leaves the words of the table alone. -/
theorem Holds.next (h : Holds m p size ws wc) (hn : NextToken m p t s m') : Holds m' s size ws wc where
  chains := h.chains
  inside i e he := by
    rw [hn.frame _ (h.inside i e he)]
    exact (h.inside i e he).trans (Fin.le_def.mp hn.after)
  spread := by
    have hread : (fun i => (wc.mapping i).map (read m')) = fun i => (wc.mapping i).map (read m) := by
      funext i
      refine List.map_congr_left fun e he => ?_
      rw [read,read,hn.frame _ (h.inside i e he)]
    rw [hread]
    exact h.spread

/-- The chain of a word after a call, also if it was empty. -/
def addToChain (m : Copy n) (word : Pointer n) : List (WordCount n) → List (WordCount n)
  | [] => [⟨word,1⟩]
  | current::chain => walkChain m word current chain

theorem addToChain_cons (m : Copy n) (word : Pointer n) (current : WordCount n)
    (chain : List (WordCount n)) :
    addToChain m word (current::chain) =
      if m.stringAt current.word = m.stringAt word then { current with count := current.count+1 }::chain
      else current::addToChain m word chain := by
  cases chain <;> rfl

theorem insertIntoWc_eq (h : wc.size ≠ 0) (m : Copy n) (word : Pointer n) :
    insertIntoWc m word wc = some { wc with
      mapping := Function.update wc.mapping (bucket wc.size (m.stringAt word))
        (addToChain m word (wc.mapping (bucket wc.size (m.stringAt word)))) } := by
  simp only [insertIntoWc,if_neg h]
  cases wc.mapping (bucket wc.size (m.stringAt word)) <;> rfl

theorem toNat_add_one {x : BitVec 32} (h : x.toNat < 2^31) : (x+1).toNat = x.toNat+1 := by
  rw [BitVec.toNat_add,Nat.mod_eq_of_lt]
  · rfl
  · change x.toNat+1 < 2^32
    omega

/-- A call adds one to the count of the word. -/
theorem read_addToChain (m : Copy n) (word : Pointer n) (chain : List (WordCount n))
    (h : ∀ e ∈ chain, e.count.toNat < 2^31) :
    (addToChain m word chain).map (read m) = addOne (m.stringAt word) (chain.map (read m)) := by
  induction chain with
  | nil => rfl
  | cons current chain ih =>
    obtain ⟨hc,h⟩ := List.forall_mem_cons.mp h
    rw [addToChain_cons,List.map_cons,addOne]
    by_cases he : m.stringAt current.word = m.stringAt word
    · have hkey : ((read m current).1 == m.stringAt word) = true := beq_iff_eq.mpr he
      rw [if_pos he,if_pos hkey,List.map_cons]
      simp only [read,toNat_add_one hc]
    · have hkey : ¬ ((read m current).1 == m.stringAt word) = true := fun hb => he (eq_of_beq hb)
      rw [if_neg he,if_neg hkey,List.map_cons,ih h]

theorem word_of_mem_addToChain {word : Pointer n} {e : WordCount n} {chain : List (WordCount n)}
    (h : e ∈ addToChain m word chain) : e.word = word ∨ ∃ e' ∈ chain, e.word = e'.word := by
  induction chain with
  | nil => exact .inl (congrArg WordCount.word (List.mem_singleton.mp h))
  | cons current chain ih =>
    rw [addToChain_cons] at h
    split at h
    · rcases List.mem_cons.mp h with rfl | h
      · exact .inr ⟨current,List.mem_cons_self,rfl⟩
      · exact .inr ⟨e,List.mem_cons_of_mem _ h,rfl⟩
    · rcases List.mem_cons.mp h with rfl | h
      · exact .inr ⟨e,List.mem_cons_self,rfl⟩
      · exact (ih h).imp_right fun ⟨e',hm,he⟩ => ⟨e',List.mem_cons_of_mem _ hm,he⟩

theorem insertIntoWc_holds (hpos : 0 < size) (h : Holds m s size ws wc) {word : Pointer n}
    (hw : word+(m.stringAt word).1.length ≤ s) (hlen : ws.length < 2^31) :
    ∃ wc', insertIntoWc m word wc = some wc' ∧ Holds m s size (ws ++ [m.stringAt word]) wc' := by
  refine ⟨_,insertIntoWc_eq (by rw [h.chains]; exact hpos.ne') m word,h.chains,fun i e he => ?_,?_⟩
  · simp only [Function.update_apply] at he
    split at he
    · rcases word_of_mem_addToChain he with hword | ⟨e',hm,hword⟩
      · rw [hword]
        exact hw
      · rw [hword]
        exact h.inside _ e' hm
    · exact h.inside i e he
  · have hread := read_addToChain m word (wc.mapping (bucket size (m.stringAt word)))
      fun e he => (h.count_le he).trans_lt hlen
    have hins := h.spread.insert (m.stringAt word)
    rw [← hread] at hins
    convert hins using 2 with i
    simp only [h.chains,Function.update_apply]
    split <;> rfl

/-! ### The loop of `wc_init` -/

/-- All words `all` of the text are counted at the end of the loop. -/
def Counted (size : ℤ) (all : List (List Byte)) (r : Option (Copy n × Wc n)) : Prop :=
  ∃ m wc ws s, r = some (m,wc) ∧ ws.map Subtype.val = all ∧ Holds m s size ws wc

/-- The loop ends when there is no further word. -/
theorem insertWords_ends (h : Holds m p size ws wc) (hst : strtok m p = (none,s,m')) (k : ℕ) :
    Counted size (ws.map Subtype.val ++ words (m.stringAt p).1) (insertWords k (none,s,m') wc) := by
  obtain ⟨hw,rfl⟩ := strtok_none hst
  refine ⟨_,wc,ws,p,by cases k <;> rfl,?_,h⟩
  rw [hw,List.append_nil]

/-- The words that `strtok` has still to find are counted in addition. -/
theorem insertWords_counted (hpos : 0 < size) (k : ℕ) (h : Holds m p size ws wc)
    (hk : (words (m.stringAt p).1).length ≤ k)
    (hlen : ws.length+(words (m.stringAt p).1).length < 2^31) :
    Counted size (ws.map Subtype.val ++ words (m.stringAt p).1) (insertWords k (strtok m p) wc) := by
  induction k generalizing m p ws wc with
  | zero =>
    rcases hst : strtok m p with ⟨_ | t,s,m'⟩
    · exact insertWords_ends h hst 0
    · rw [(strtok_some hst).words] at hk
      simp at hk
  | succ k ih =>
    rcases hst : strtok m p with ⟨_ | t,s,m'⟩
    · exact insertWords_ends h hst _
    · have hn := strtok_some hst
      rw [hn.words,List.length_cons] at hk hlen
      obtain ⟨wc',hins,hholds⟩ := insertIntoWc_holds hpos (h.next hn) hn.before (by omega)
      have hrest := ih hholds (Nat.le_of_succ_le_succ hk)
        (by rw [List.length_append,List.length_singleton]; omega)
      rw [insertWords,hins,Option.bind_some,hn.words]
      simpa using hrest

/-! ### The result -/

/-- The table has every word of the text once, with the number of times that it occurs, and nothing
else; the output has a line for each of them. -/
structure ExactCounts (text : List Byte) (m : Copy n) (wc : Wc n) : Prop where
  once : ((entries m wc).map Prod.fst).Nodup
  exact : ∀ w k, (w,k) ∈ entries m wc ↔ w ∈ words text ∧ k = (words text).count w
  output : wcOutput m wc = (entries m wc).flatMap fun e => line e.1 e.2

theorem wcOutput_eq (m : Copy n) (wc : Wc n) :
    wcOutput m wc = (entries m wc).flatMap fun e => line e.1 e.2 := by
  simp only [wcOutput,entries,List.flatMap_assoc,List.flatMap_map]

/-- The words and counts of all chains. -/
def contents (m : Copy n) (wc : Wc n) : List (List Byte × ℕ) :=
  ((List.range wc.size.toNat).flatMap fun i : ℕ => (wc.mapping i).map (read m)).map fun e => (e.1.1,e.2)

theorem Holds.counts (h : Holds m s size ws wc) (hpos : 0 < size) :
    Counts (ws.map Subtype.val) (contents m wc) := by
  have hindices : ((List.range size.toNat).map fun i : ℕ => (i : ℤ)).Nodup :=
    List.nodup_range.map Nat.cast_injective
  have hall := h.spread.collect hindices fun str _ => by
    obtain ⟨h₀,h₁⟩ := CacheInvariant.bucket_range hpos str
    exact List.mem_map.mpr ⟨(bucket size str).toNat,List.mem_range.mpr (by omega),by omega⟩
  rw [List.flatMap_map,← h.chains] at hall
  exact hall.map Subtype.val_injective

theorem Holds.entries_eq (h : Holds m s size ws wc) (hlen : ws.length < 2^31) :
    entries m wc = (contents m wc).map fun e => (e.1,(e.2 : ℤ)) := by
  rw [entries,contents,List.map_map,List.map_flatMap]
  congr 1
  funext i
  rw [List.map_map]
  refine List.map_congr_left fun e he => ?_
  have hlt := (h.count_le he).trans_lt hlen
  rw [BitVec.toInt_eq_toNat_of_lt (by omega)]
  rfl

theorem Holds.exactCounts {text : List Byte} (h : Holds m s size ws wc) (hpos : 0 < size)
    (hws : ws.map Subtype.val = words text) (hlen : ws.length < 2^31) : ExactCounts text m wc := by
  have hc := h.counts hpos
  rw [hws] at hc
  refine ⟨?_,fun w k => ?_,wcOutput_eq m wc⟩
  · have hkeys : (entries m wc).map Prod.fst = (contents m wc).map Prod.fst := by
      rw [h.entries_eq hlen,List.map_map]
      rfl
    rw [hkeys]
    exact hc.once
  · rw [h.entries_eq hlen,List.mem_map]
    constructor
    · rintro ⟨⟨w',j⟩,he,hj⟩
      obtain ⟨rfl,rfl⟩ := Prod.mk.inj hj
      obtain ⟨hj,rfl⟩ := (hc.exact w' j).mp he
      exact ⟨List.count_pos_iff.mp hj,rfl⟩
    · rintro ⟨hw,rfl⟩
      exact ⟨(w,_),hc.mem hw,rfl⟩

/-- A text of fewer than `2^31` characters has fewer words than an `int` can count. -/
theorem fill_exactCounts {text : List Byte} (h : 0 ∉ text) (hlen : text.length < 2^31) (h₀ : 0 < size)
    (hb : size < 2^30) : ∃ n, ∃ (m : Copy n) (wc : Wc n),
      fill (Copy.of text) size = .returns n m wc ∧ ExactCounts text m wc := by
  have hsize : (BitVec.ofInt 32 (2*size)).toInt = 2*size := by
    rw [BitVec.toInt_ofInt,Int.bmod_eq_of_le] <;> omega
  have hpos : 0 < 2*size := by omega
  have hstart : Holds (Copy.of text) 0 (2*size) [] ⟨2*size,fun _ => []⟩ :=
    ⟨rfl,fun _ e he => by simp at he,fun _ => Counts.nil⟩
  have hle : (words text).length ≤ text.length := length_tokens_le _ _
  have hcounted := insertWords_counted hpos text.length hstart
  rw [stringAt_of h] at hcounted
  obtain ⟨m,wc,ws,s,hr,hws,hh⟩ := hcounted hle (by rw [List.length_nil]; omega)
  have hwords : ws.length = (words text).length := by
    simpa using congrArg List.length hws
  refine ⟨text.length,m,wc,?_,hh.exactCounts hpos hws (by omega)⟩
  simp only [fill,hsize,if_neg (not_lt.mpr hpos.le),hr]

/-- `strcpy` copies the text and its terminator. -/
theorem wcInit_append {text : List Byte} (h : 0 ∉ text) (rest : List Byte) (size : ℤ) :
    wcInit (text ++ 0::rest) size = ⟨text.length+1,fill (Copy.of text) size⟩ := by
  have hlt : text.length < (text ++ 0::rest).length := by simp
  have htext := takeWhile_text h rest
  unfold wcInit
  generalize (text ++ 0::rest).takeWhile (· ≠ 0) = copied at htext
  subst htext
  exact if_pos hlt

/-- The words of a text that fits into the copy are counted exactly. -/
theorem word_counts_exact (text rest : List Byte) (size : ℤ) (h : 0 ∉ text) (hlt : text.length < size)
    (hb : size < 2^30) : ∃ n, ∃ (m : Copy n) (wc : Wc n),
      (wcInit (text ++ 0::rest) size).outcome = .returns n m wc ∧ ExactCounts text m wc := by
  rw [wcInit_append h]
  exact fill_exactCounts h (by omega) (by omega) hb

theorem twoWords_exact : ∃ n, ∃ (m : Copy n) (wc : Wc n),
    (wcInit [97,32,98,10,97,0,99] 6).outcome = .returns n m wc ∧ ExactCounts [97,32,98,10,97] m wc :=
  word_counts_exact [97,32,98,10,97] [99] 6 (by decide) (by decide) (by decide)

end WordCounts
end OsLabs

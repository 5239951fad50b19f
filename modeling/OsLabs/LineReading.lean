import OsLabs.RioModel

/-!
# Reading lines

`rio_readlineb` takes the pieces into which `cut` divides the stream, whatever `read` answers, as
long as its `int` counter holds their lengths. It puts the terminating zero behind the bytes of
the piece, and so behind the buffer if the piece fills it.
-/

namespace OsLabs
namespace LineReading

open Bytes LineCutting RioModel
open FsModel (toInt32 toSize)

variable {rp : Rio} {stream : List Byte} {maxlen k rest iterations : ℕ}

def endsLine (c : Byte) : Bool := c == newline

/-- The bytes after which the loop stops for its bound. The counter wraps around behind `2^31-1`
bytes, and is then large as a `size_t`. -/
def limit (maxlen : ℕ) : ℕ :=
  if maxlen ≤ 2^31 then maxlen else max (2^31) (maxlen+2^32-2^64)

/-! ### The counter -/

theorem toInt32_cases (hk : k < 2^32) :
    k < 2^31 ∧ toInt32 k = k ∨ 2^31 ≤ k ∧ toInt32 k = k-2^32 := by
  unfold toInt32
  by_cases h : k < 2^31
  · exact .inl ⟨h,Int.bmod_eq_of_le (by omega) (by omega)⟩
  · refine .inr ⟨not_lt.mp h,?_⟩
    have hshift : ((k : ℤ)-2^32).bmod (2^32) = (k : ℤ).bmod (2^32) := by
      rw [Int.bmod_def,Int.bmod_def]
      omega
    rw [← hshift]
    exact Int.bmod_eq_of_le (by omega) (by omega)

theorem toInt32_succ (k : ℕ) : toInt32 (toInt32 k+1) = toInt32 ((k+1 : ℕ) : ℤ) := by
  unfold toInt32
  rw [Int.bmod_add_bmod]
  norm_cast

theorem limit_cases (maxlen : ℕ) : maxlen ≤ 2^31 ∧ limit maxlen = maxlen ∨
    2^31 < maxlen ∧ limit maxlen = max (2^31) (maxlen+2^32-2^64) := by
  unfold limit
  split <;> omega

theorem limit_lt (hm : maxlen < 2^64) : limit maxlen < 2^32 := by
  have hcases := limit_cases maxlen
  omega

theorem limit_le (maxlen : ℕ) : limit maxlen ≤ maxlen := by
  have hcases := limit_cases maxlen
  omega

/-- The test of the loop, by the number of bytes. -/
theorem counter_lt_iff (hm : maxlen < 2^64) (hk : k ≤ limit maxlen) :
    toSize (toInt32 k) < maxlen ↔ k < limit maxlen := by
  have hlt := limit_lt hm
  have hcases := limit_cases maxlen
  rcases toInt32_cases (k := k) (by omega) with ⟨hk',he⟩ | ⟨hk',he⟩
  · rw [he,toSize]
    omega
  · have hsize : toSize ((k : ℤ)-2^32) = k+2^64-2^32 := by
      unfold toSize
      omega
    rw [he,hsize]
    omega

/-! ### The loop -/

@[simp] theorem copyIn_nil (m : Region) (o : ℕ) : copyIn m o [] = m := by
  funext i
  exact copyIn_of_notMem m (by simp)

theorem copyIn_cons (m : Region) (o : ℕ) (c : Byte) (l : List Byte) :
    copyIn (Function.update m o c) (o+1) l = copyIn m o (c::l) := by
  funext i
  by_cases hi : o ≤ i ∧ i < o+(c::l).length
  · rw [copyIn_of_mem m hi.1 hi.2]
    rcases eq_or_lt_of_le hi.1 with rfl | hlt
    · rw [copyIn_of_notMem _ (by omega)]
      simp
    · have hlen := hi.2
      rw [List.length_cons] at hlen
      rw [copyIn_of_mem _ (by omega) (by omega)]
      obtain ⟨j,rfl⟩ : ∃ j, i = o+1+j := ⟨i-(o+1),by omega⟩
      rw [show o+1+j-o = j+1 by omega,Nat.add_sub_cancel_left,List.getD_cons_succ]
  · have hlen : (c::l).length = l.length+1 := rfl
    rw [copyIn_of_notMem m hi,copyIn_of_notMem _ (by omega),Function.update_of_ne (by omega)]

/-- The loop takes the next piece and goes on behind it. The first byte of the piece may have been
taken before, or waits in the stream. -/
theorem lineLoop_spec (usrbuf : Region) (hm : maxlen < 2^64) (hlimit : k+rest = limit maxlen)
    (h : Delivers rp stream) (hstart : k = 0 → stream ≠ [])
    (hi : (piece endsLine rest stream).length < iterations) :
    let p := piece endsLine rest stream
    ∃ rp', lineLoop maxlen iterations (toInt32 k) k usrbuf rp =
        some (terminate (toInt32 ((k+p.length : ℕ) : ℤ)) (k+p.length) (copyIn usrbuf k p) rp') ∧
      Delivers rp' (stream.drop p.length) := by
  induction iterations generalizing k rest rp stream usrbuf with
  | zero => omega
  | succ iterations ih =>
    have htest := counter_lt_iff hm (k := k) (by omega)
    unfold lineLoop
    cases rest with
    | zero =>
      rw [if_neg (by omega)]
      exact ⟨rp,by simp,by simpa using h⟩
    | succ rest =>
      rw [if_pos (htest.mpr (by omega))]
      have hr := rioReadb_spec h
      cases stream with
      | nil =>
        obtain ⟨rp',hr,hd⟩ := hr
        have hk : toInt32 k ≠ 0 := by
          have hlt := limit_lt hm
          have hpos : k ≠ 0 := fun hk => hstart hk rfl
          rcases toInt32_cases (k := k) (by omega) with ⟨-,he⟩ | ⟨-,he⟩ <;> omega
        exact ⟨rp',by simp [hr,hk],by simpa using hd⟩
      | cons b stream =>
        obtain ⟨rp',hr,hd⟩ := hr
        by_cases hb : b = newline
        · refine ⟨rp',?_,by simpa [piece,endsLine,hb] using hd⟩
          simp [hr,hb,piece,endsLine,toInt32_succ,← copyIn_cons]
        · have hpiece : piece endsLine (rest+1) (b::stream) = b::piece endsLine rest stream := by
            simp [piece,endsLine,hb]
          rw [hpiece] at hi ⊢
          obtain ⟨rp'',hl,hd'⟩ := ih (k := k+1) (Function.update usrbuf k b)
            (show k+1+rest = limit maxlen by omega) hd (by omega) (by simpa using hi)
          refine ⟨rp'',?_,by simpa using hd'⟩
          simp only [hr,List.headD_cons,if_true,if_neg hb,toInt32_succ,hl,copyIn_cons,
            List.length_cons,Nat.add_assoc,Nat.add_comm 1]

theorem rioReadlineb_spec (usrbuf : Region) (hm : maxlen < 2^64) (h : Delivers rp stream) (hs : stream ≠ []) :
    let p := piece endsLine (limit maxlen) stream
    ∃ rp', rioReadlineb rp usrbuf maxlen =
        some (terminate (toInt32 p.length) p.length (copyIn usrbuf 0 p) rp') ∧
      Delivers rp' (stream.drop p.length) := by
  have hlen : (piece endsLine (limit maxlen) stream).length < (unread rp).length+1 := by
    have hle := (piece_isPrefix endsLine (limit maxlen) stream).length_le
    rw [h.unread_eq]
    omega
  have hspec := lineLoop_spec (k := 0) usrbuf hm (Nat.zero_add _) h (fun _ => hs) hlen
  simpa [rioReadlineb,toInt32] using hspec

theorem rioReadlineb_eof (usrbuf : Region) (hpos : 0 < maxlen) (h : Delivers rp []) :
    ∃ rp', rioReadlineb rp usrbuf maxlen = some ⟨0,usrbuf,rp'⟩ ∧ Delivers rp' [] := by
  obtain ⟨rp',hr,hd⟩ := rioReadb_spec h
  have hzero : toSize 0 < maxlen := hpos
  exact ⟨rp',by simp [rioReadlineb,lineLoop,hzero,hr],hd⟩

/-! ## The end of the buffer -/

/-- The call returns, and leaves alone what is behind the `maxlen` bytes of the buffer. -/
def InBuffer (maxlen : ℕ) (rp : Rio) : Prop :=
  ∀ usrbuf, ∃ line, rioReadlineb rp usrbuf maxlen = some line ∧
    ∀ i, maxlen ≤ i → line.usrbuf i = usrbuf i

/-- The zero behind a piece that fills the buffer. -/
theorem zero_behind_buffer (usrbuf : Region) (hpos : 0 < maxlen) (hm : maxlen ≤ 2^31)
    (h : Delivers rp stream) (hfull : (piece endsLine maxlen stream).length = maxlen) :
    ∃ line, rioReadlineb rp usrbuf maxlen = some line ∧ line.usrbuf maxlen = 0 := by
  have hs : stream ≠ [] := by
    rintro rfl
    simp at hfull
    omega
  have hlimit : limit maxlen = maxlen := if_pos hm
  obtain ⟨rp',hr,-⟩ := rioReadlineb_spec usrbuf (show maxlen < 2^64 by omega) h hs
  exact ⟨_,hr,by simp [terminate,hlimit,hfull]⟩

theorem not_inBuffer_of_full (hpos : 0 < maxlen) (hm : maxlen ≤ 2^31) (h : Delivers rp stream)
    (hfull : (piece endsLine maxlen stream).length = maxlen) : ¬ InBuffer maxlen rp := by
  intro hin
  obtain ⟨line,hline,hsame⟩ := hin fun _ => 1
  obtain ⟨line',hline',hzero⟩ := zero_behind_buffer (fun _ => 1) hpos hm h hfull
  obtain rfl := Option.some.inj (hline'.symm.trans hline)
  exact absurd (hzero.symm.trans (hsame maxlen le_rfl)) (by decide)

/-- Nothing is written behind the buffer if and only if the next line is shorter than the buffer,
or `n` wraps around before the buffer is full. -/
theorem inBuffer_iff (hpos : 0 < maxlen) (hm : maxlen < 2^64) (h : Delivers rp stream) :
    InBuffer maxlen rp ↔ (piece endsLine maxlen stream).length < maxlen ∨ 2^31 < maxlen := by
  constructor
  · intro hin
    have hle := length_piece_le endsLine maxlen stream
    by_contra hne
    exact not_inBuffer_of_full hpos (by omega) h (by omega) hin
  · intro hshort usrbuf
    by_cases hs : stream = []
    · subst hs
      obtain ⟨rp',hr,-⟩ := rioReadlineb_eof usrbuf hpos h
      exact ⟨_,hr,fun _ _ => rfl⟩
    · obtain ⟨rp',hr,-⟩ := rioReadlineb_spec usrbuf hm h hs
      have hlen : (piece endsLine (limit maxlen) stream).length < maxlen := by
        rw [piece_take endsLine (limit_le maxlen),List.length_take]
        have hcases := limit_cases maxlen
        omega
      refine ⟨_,hr,fun i hi => ?_⟩
      simp only [terminate]
      rw [Function.update_of_ne (by omega),copyIn_of_notMem _ (by omega)]

/-- Two answers of `read` around an interruption: `a`, and then `b`, a newline and `c`. -/
def twoReads : Rio :=
  rioInit [.data ⟨[97],by decide⟩,.interrupted,.data ⟨[98,10,99],by decide⟩] fun _ => 0

theorem twoReads_inBuffer : Delivers twoReads [97,98,10,99] ∧ InBuffer 4 twoReads :=
  ⟨delivers_init (by simp) _,
    (inBuffer_iff (by decide) (by decide) (delivers_init (by simp) _)).mpr (by decide)⟩

/-- `count` chunks of `size` letters `a`. -/
def lettersFd (count size : ℕ) (h : 0 < size ∧ size ≤ rioBufsize) : List ReadResult :=
  List.replicate count (.data ⟨List.replicate size 97,by
    obtain ⟨size,rfl⟩ : ∃ k, size = k+1 := ⟨size-1,by omega⟩
    simpa [List.replicate_succ] using h.2⟩)

theorem delivers_letters (count size : ℕ) (h : 0 < size ∧ size ≤ rioBufsize) (buf : Region) :
    Delivers (rioInit (lettersFd count size h) buf) (List.replicate (count*size) 97) := by
  have hd : Delivers (rioInit (lettersFd count size h) buf) _ :=
    delivers_init (by simp [lettersFd]) buf
  simpa [lettersFd,List.flatMap_replicate,ReadResult.bytes] using hd

theorem piece_letters (n k : ℕ) :
    piece endsLine n (List.replicate k 97) = List.replicate (min n k) 97 :=
  piece_replicate (by decide) n k

/-- A line of 8192 letters in a buffer of 8192 bytes -/
theorem full_line_not_inBuffer :
    ¬ InBuffer 8192 (rioInit (lettersFd 1 8192 (by decide)) fun _ => 0) :=
  not_inBuffer_of_full (by decide) (by decide) (delivers_letters 1 8192 (by decide) _) (by
    rw [piece_letters,List.length_replicate]
    rfl)

/-! ## The sequence of the lines -/

/-- What call `i` returns: the piece with this number, and 0 behind the last one. -/
def lineResult (pieces : List (List Byte)) (i : ℕ) : ℤ × List Byte :=
  ((pieces.getD i []).length,pieces.getD i [])

/-- The calls of `rio_readlineb` return the pieces of the stream, and then nothing. -/
structure ReadsCut (maxlen : ℕ) (rp : Rio) (usrbuf : Region) (stream : List Byte) : Prop where
  lines : ∀ calls, readLines maxlen calls rp usrbuf =
    some ((List.range calls).map (lineResult (cut endsLine maxlen stream)))
  whole : ∃ calls lines, readLines maxlen calls rp usrbuf = some lines ∧
    (lines.map Prod.snd).flatten = stream
  eof : ∀ p ∈ cut endsLine maxlen stream, 0 < p.length

theorem range_lineResult (p : List Byte) (pieces : List (List Byte)) (calls : ℕ) :
    (List.range (calls+1)).map (lineResult (p::pieces)) =
      ((p.length : ℤ),p)::(List.range calls).map (lineResult pieces) := by
  rw [List.range_succ_eq_map,List.map_cons,List.map_map]
  rfl

theorem map_range_lineResult (pieces : List (List Byte)) :
    ((List.range pieces.length).map (lineResult pieces)).map Prod.snd = pieces := by
  induction pieces with
  | nil => rfl
  | cons p pieces ih =>
    rw [List.length_cons,range_lineResult,List.map_cons,ih]

theorem copyOut_terminate (m : Region) (p : List Byte) :
    copyOut (Function.update (copyIn m 0 p) p.length 0) 0 p.length = p := by
  have hcopy := copyOut_copyIn m (o := 0) (a := 0) (l := p) (n := p.length) (by simp)
  rw [List.drop_zero,List.take_length] at hcopy
  refine Eq.trans (copyOut_congr fun i _ hi => ?_) hcopy
  exact Function.update_of_ne (by omega) ..

theorem readLines_eof (hpos : 0 < maxlen) (usrbuf : Region) (h : Delivers rp []) (calls : ℕ) :
    readLines maxlen calls rp usrbuf = some ((List.range calls).map (lineResult [])) := by
  induction calls generalizing rp with
  | zero => rfl
  | succ calls ih =>
    obtain ⟨rp',hr,hd⟩ := rioReadlineb_eof usrbuf hpos h
    rw [List.range_succ_eq_map,List.map_cons,List.map_map]
    simp [readLines,hr,ih hd,lineResult,copyOut]

/-- A bound that the counter holds does not matter. -/
theorem piece_limit (h : (piece endsLine maxlen stream).length < 2^31) :
    piece endsLine (limit maxlen) stream = piece endsLine maxlen stream := by
  rw [piece_take endsLine (limit_le maxlen)]
  unfold limit
  split
  · exact List.take_of_length_le (length_piece_le ..)
  · exact List.take_of_length_le (by omega)

/-- The first call, and the calls behind it. -/
theorem readLines_succ (hm : maxlen < 2^64) (usrbuf : Region) (h : Delivers rp stream)
    (hs : stream ≠ []) :
    let p := piece endsLine (limit maxlen) stream
    ∃ rp' usrbuf', Delivers rp' (stream.drop p.length) ∧ copyOut usrbuf' 0 p.length = p ∧
      ∀ calls, readLines maxlen (calls+1) rp usrbuf =
        (readLines maxlen calls rp' usrbuf').map fun lines =>
          (toInt32 p.length,copyOut usrbuf' 0 (toInt32 p.length).toNat)::lines := by
  obtain ⟨rp',hr,hd⟩ := rioReadlineb_spec usrbuf hm h hs
  refine ⟨rp',_,hd,copyOut_terminate usrbuf _,fun calls => ?_⟩
  simp only [readLines,hr,terminate,Option.bind_eq_bind,Option.bind_some,Option.map_eq_bind]
  rfl

theorem readLines_of_short (hpos : 0 < maxlen) (hm : maxlen < 2^64) (usrbuf : Region)
    (h : Delivers rp stream) (hshort : ∀ p ∈ cut endsLine maxlen stream, p.length < 2^31)
    (calls : ℕ) : readLines maxlen calls rp usrbuf =
      some ((List.range calls).map (lineResult (cut endsLine maxlen stream))) := by
  induction stream using induction_on_pieces endsLine hpos generalizing rp usrbuf calls with
  | nil => exact readLines_eof hpos usrbuf h calls
  | step stream hs ih =>
    rw [cut_eq endsLine hpos hs] at hshort ⊢
    obtain ⟨hfirst,hrest⟩ := List.forall_mem_cons.mp hshort
    obtain ⟨rp',usrbuf',hd,hcopy,hsucc⟩ := readLines_succ hm usrbuf h hs
    rw [piece_limit hfirst] at hd hcopy hsucc
    cases calls with
    | zero => rfl
    | succ calls =>
      have hint : toInt32 ((piece endsLine maxlen stream).length : ℤ) =
          (piece endsLine maxlen stream).length :=
        Int.bmod_eq_of_le (by omega) (by omega)
      rw [hsucc,ih usrbuf' hd hrest,Option.map_some,range_lineResult,hint,Int.toNat_natCast,hcopy]

theorem short_of_readLines (hpos : 0 < maxlen) (hm : maxlen < 2^64) (usrbuf : Region)
    (h : Delivers rp stream) (hlines : ∀ calls, readLines maxlen calls rp usrbuf =
      some ((List.range calls).map (lineResult (cut endsLine maxlen stream)))) :
    ∀ p ∈ cut endsLine maxlen stream, p.length < 2^31 := by
  induction stream using induction_on_pieces endsLine hpos generalizing rp usrbuf with
  | nil => simp
  | step stream hs ih =>
    rw [cut_eq endsLine hpos hs] at hlines ⊢
    obtain ⟨rp',usrbuf',hd,-,hsucc⟩ := readLines_succ hm usrbuf h hs
    have hstep : ∀ calls, ∃ lines, readLines maxlen calls rp' usrbuf' = some lines ∧ _ = _ :=
      fun calls => Option.map_eq_some_iff.mp
        ((hsucc calls).symm.trans ((hlines (calls+1)).trans (congrArg some (range_lineResult ..))))
    have hfirst : (piece endsLine maxlen stream).length < 2^31 := by
      obtain ⟨lines,-,he⟩ := hstep 0
      have hret := congrArg Prod.fst (List.cons.inj he).1
      have hcases := limit_cases maxlen
      have hlimit := limit_lt hm
      have hle := length_piece_le endsLine maxlen stream
      rw [piece_take endsLine (limit_le maxlen),List.length_take] at hret
      dsimp only at hret
      rcases toInt32_cases (k := min (limit maxlen) (piece endsLine maxlen stream).length)
        (by omega) with ⟨hk,hk'⟩ | ⟨hk,hk'⟩ <;> omega
    rw [piece_limit hfirst] at hd
    refine List.forall_mem_cons.mpr ⟨hfirst,ih usrbuf' hd fun calls => ?_⟩
    obtain ⟨lines,hlines',he⟩ := hstep calls
    rw [hlines',(List.cons.inj he).2]

/-- The calls return the pieces of the stream, for any answers of `read`, if and only if no piece
overflows the counter. -/
theorem readsCut_iff (hpos : 0 < maxlen) (hm : maxlen < 2^64) (usrbuf : Region)
    (h : Delivers rp stream) :
    ReadsCut maxlen rp usrbuf stream ↔ ∀ p ∈ cut endsLine maxlen stream, p.length < 2^31 := by
  refine ⟨fun hr => short_of_readLines hpos hm usrbuf h hr.lines,fun hshort => ?_⟩
  have hlines := readLines_of_short hpos hm usrbuf h hshort
  refine ⟨hlines,⟨_,_,hlines (cut endsLine maxlen stream).length,?_⟩,fun p hp => ?_⟩
  · rw [map_range_lineResult]
    exact flatten_cut endsLine hpos stream
  · exact List.length_pos_iff.mpr (ne_nil_of_mem_cut hpos hp)

theorem twoReads_readsCut :
    Delivers twoReads [97,98,10,99] ∧ ReadsCut 3 twoReads (fun _ => 0) [97,98,10,99] :=
  ⟨delivers_init (by simp) _,
    (readsCut_iff (by decide) (by decide) _ (delivers_init (by simp) _)).mpr (by decide)⟩

/-- A line of `2^31` letters: the counter is `-2^31` behind it. -/
theorem overflow_of_letters {n : ℕ} (hn : n = 2^31) (hm : maxlen = 2^31) (usrbuf : Region)
    (h : Delivers rp (List.replicate n 97)) :
    (∃ line, rioReadlineb rp usrbuf maxlen = some line ∧ line.ret = -2^31) ∧
      ¬ ReadsCut maxlen rp usrbuf (List.replicate n 97) := by
  have hpos : 0 < maxlen := by omega
  have hsize : maxlen < 2^64 := by omega
  have hs : List.replicate n (97 : Byte) ≠ [] := fun hnil => by
    have hlen := congrArg List.length hnil
    rw [List.length_replicate,List.length_nil] at hlen
    omega
  refine ⟨?_,fun hr => ?_⟩
  · obtain ⟨rp',hr,-⟩ := rioReadlineb_spec usrbuf hsize h hs
    have hlimit : limit maxlen = maxlen := if_pos (by omega)
    have hlen : min maxlen n = n := by omega
    refine ⟨_,hr,?_⟩
    rw [piece_letters,terminate,List.length_replicate,hlimit,hlen]
    rcases toInt32_cases (k := n) (by omega) with ⟨hk,-⟩ | ⟨-,he⟩
    · omega
    · dsimp only
      omega
  · have hshort := short_of_readLines hpos hsize usrbuf h hr.lines
    rw [cut_eq endsLine hpos hs] at hshort
    have hfirst := (List.forall_mem_cons.mp hshort).1
    rw [piece_letters,List.length_replicate] at hfirst
    omega

/-- A line of `2^31` letters in a buffer of that size -/
theorem long_line_not_readsCut :
    let rp := rioInit (lettersFd (2^18) 8192 (by decide)) fun _ => 0
    (∃ line, rioReadlineb rp (fun _ => 0) (2^31) = some line ∧ line.ret = -2^31) ∧
      ¬ ReadsCut (2^31) rp (fun _ => 0) (List.replicate (2^18*8192) 97) :=
  overflow_of_letters (by norm_num) rfl _ (delivers_letters (2^18) 8192 (by decide) _)

end LineReading
end OsLabs

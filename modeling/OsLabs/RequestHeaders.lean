import OsLabs.LineReading
import OsLabs.RequestModel

/-!
# Reading the headers of a request

`request_read_headers` reads lines until the line buffer holds an empty line. At the end of the
stream `rio_readlineb` leaves the buffer as it is, so the loop ends if and only if one of the
pieces of the stream is an empty line.
-/

namespace OsLabs
namespace RequestHeaders

open Bytes LineCutting RioModel LineReading
open FsModel (toInt32)
open RequestModel (maxLine)

def crlf : List Byte := [13,10]

/-- `strcmp` finds no difference. -/
def strcmp (buf : Region) (str : List Byte) : Bool := copyOut buf 0 (str.length+1) == str ++ [0]

/-- The wrapper exits on an error. -/
def readlineOrExit (rp : Rio) (usrbuf : Region) (maxlen : ℕ) : Option Line :=
  (rioReadlineb rp usrbuf maxlen).bind fun line => if line.ret < 0 then none else some line

/-- `request_read_headers`, if it returns after at most so many calls of `Rio_readlineb`. The
array `buf` is not initialised. -/
def requestReadHeaders : ℕ → Rio → Region → Option Rio
  | 0, _, _ => none
  | calls+1, rp, buf => do
    let line ← readlineOrExit rp buf maxLine
    if strcmp line.usrbuf crlf then some line.rp
    else requestReadHeaders calls line.rp line.usrbuf

variable {rp : Rio} {stream : List Byte} {buf : Region} {maxlen : ℕ}

def Returns (rp : Rio) (buf : Region) : Prop := ∃ calls rp', requestReadHeaders calls rp buf = some rp'

/-! ### One call -/

def held (buf : Region) (p : List Byte) : Region := Function.update (copyIn buf 0 p) p.length 0

theorem readlineOrExit_eof (hpos : 0 < maxlen) (buf : Region) (h : Delivers rp []) :
    ∃ rp', readlineOrExit rp buf maxlen = some ⟨0,buf,rp'⟩ ∧ Delivers rp' [] := by
  obtain ⟨rp',hr,hd⟩ := rioReadlineb_eof buf hpos h
  exact ⟨rp',by simp [readlineOrExit,hr],hd⟩

theorem readlineOrExit_spec (hm : maxlen < 2^31) (buf : Region) (h : Delivers rp stream)
    (hs : stream ≠ []) :
    let p := piece endsLine maxlen stream
    ∃ rp', readlineOrExit rp buf maxlen = some ⟨p.length,held buf p,rp'⟩ ∧
      Delivers rp' (stream.drop p.length) := by
  obtain ⟨rp',hr,hd⟩ := rioReadlineb_spec buf (by omega : maxlen < 2^64) h hs
  have hlimit : limit maxlen = maxlen := if_pos hm.le
  have hle : (piece endsLine maxlen stream).length ≤ maxlen := length_piece_le ..
  rw [hlimit] at hr hd
  have hint : toInt32 ((piece endsLine maxlen stream).length : ℤ) =
      (piece endsLine maxlen stream).length :=
    Int.bmod_eq_of_le (by omega) (by omega)
  rw [hint] at hr
  exact ⟨rp',by simp [readlineOrExit,hr,terminate,held],hd⟩

/-- The buffer compares equal to an empty line if and only if that is the piece. -/
theorem strcmp_held (hpos : 0 < maxlen) (buf : Region) (hs : stream ≠ []) :
    strcmp (held buf (piece endsLine maxlen stream)) crlf = true ↔
      piece endsLine maxlen stream = crlf := by
  have hends : ∀ x ∈ (piece endsLine maxlen stream).dropLast, endsLine x = false :=
    fun x => not_ends_of_mem_dropLast maxlen stream
  have hne := piece_ne_nil endsLine hpos hs
  generalize piece endsLine maxlen stream = p at hends hne
  have hget : ∀ i, held buf p i = if i < p.length then p.getD i 0 else
      if i = p.length then 0 else buf i := by
    intro i
    unfold held
    by_cases hi : i = p.length
    · simp [hi]
    · rw [Function.update_of_ne hi,copyIn]
      simp [hi]
  have hstr : strcmp (held buf p) crlf = true ↔
      held buf p 0 = 13 ∧ held buf p 1 = 10 ∧ held buf p 2 = 0 := by
    simp [strcmp,crlf,copyOut,List.range_succ]
  rw [hstr,hget,hget,hget]
  rcases p with _ | ⟨a,_ | ⟨b,_ | ⟨c,t⟩⟩⟩
  · exact absurd rfl hne
  · simp [crlf]
  · simp [crlf]
  · have hb : b ≠ newline := by simpa [endsLine] using hends b (by simp)
    have hb' : b ≠ 10#8 := hb
    simp [crlf,hb']

/-! ### The loop -/

theorem returns_of_strcmp {line : Line} (hr : readlineOrExit rp buf maxLine = some line)
    (hc : strcmp line.usrbuf crlf = true) : Returns rp buf :=
  ⟨1,line.rp,by simp [requestReadHeaders,hr,hc]⟩

theorem returns_iff_of_not_strcmp {line : Line} (hr : readlineOrExit rp buf maxLine = some line)
    (hc : strcmp line.usrbuf crlf ≠ true) : Returns rp buf ↔ Returns line.rp line.usrbuf := by
  have hstep : ∀ calls, requestReadHeaders (calls+1) rp buf =
      requestReadHeaders calls line.rp line.usrbuf := fun calls => by
    simp [requestReadHeaders,hr,hc]
  constructor
  · rintro ⟨calls,rp',h⟩
    cases calls with
    | zero => simp [requestReadHeaders] at h
    | succ calls => exact ⟨calls,rp',hstep calls ▸ h⟩
  · rintro ⟨calls,rp',h⟩
    exact ⟨calls+1,rp',(hstep calls).trans h⟩

/-- At the end of the stream the loop goes on for ever, unless the buffer held an empty line. -/
theorem returns_eof_iff (h : Delivers rp []) : Returns rp buf ↔ strcmp buf crlf = true := by
  constructor
  · rintro ⟨calls,rp',hc⟩
    by_contra hne
    induction calls generalizing rp with
    | zero => simp [requestReadHeaders] at hc
    | succ calls ih =>
      obtain ⟨rp'',hr,hd⟩ := readlineOrExit_eof (by decide : 0 < maxLine) buf h
      exact ih hd (by simpa [requestReadHeaders,hr,hne] using hc)
  · intro hc
    obtain ⟨rp',hr,-⟩ := readlineOrExit_eof (by decide : 0 < maxLine) buf h
    exact returns_of_strcmp hr hc

/-- The loop ends if and only if one of the pieces is an empty line; without any bytes it depends
on what the array held before. -/
theorem requestReadHeaders_returns_iff (h : Delivers rp stream) (buf : Region) :
    Returns rp buf ↔
      crlf ∈ cut endsLine maxLine stream ∨ stream = [] ∧ strcmp buf crlf = true := by
  have hpos : 0 < maxLine := by decide
  induction stream using induction_on_pieces endsLine hpos generalizing rp buf with
  | nil => simpa using returns_eof_iff h
  | step stream hs ih =>
    obtain ⟨rp',hr,hd⟩ := readlineOrExit_spec (by decide : maxLine < 2^31) buf h hs
    have hheld := strcmp_held hpos buf hs
    rw [cut_eq endsLine hpos hs,List.mem_cons]
    by_cases hp : piece endsLine maxLine stream = crlf
    · exact iff_of_true (returns_of_strcmp hr (hheld.mpr hp)) (.inl (.inl hp.symm))
    · have hc : strcmp (held buf (piece endsLine maxLine stream)) crlf ≠ true := mt hheld.mp hp
      refine (returns_iff_of_not_strcmp hr hc).trans ((ih hd _).trans ?_)
      simp [hs,hc,Ne.symm hp]

theorem empty_line_returns : Returns
    (rioInit [.data ⟨[97],by decide⟩,.interrupted,.data ⟨[10,13,10],by decide⟩] fun _ => 0)
    fun _ => 0 :=
  (requestReadHeaders_returns_iff (delivers_init (by simp) _) _).mpr (by decide)

theorem cut_off_does_not_return :
    ¬ Returns (rioInit [.data ⟨[97],by decide⟩] fun _ => 0) fun _ => 0 := by
  have h : Delivers (rioInit [.data ⟨[97],by decide⟩] fun _ => 0) [97] :=
    delivers_init (by simp) _
  obtain ⟨rp',hr,hd⟩ := readlineOrExit_spec (by decide : maxLine < 2^31) (fun _ => 0) h (by decide)
  have hc : strcmp (held (fun _ => 0) (piece endsLine maxLine [97])) crlf ≠ true := by decide
  rw [returns_iff_of_not_strcmp hr hc,returns_eof_iff hd]
  exact hc

end RequestHeaders
end OsLabs

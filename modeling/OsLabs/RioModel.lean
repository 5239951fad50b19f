import OsLabs.FsModel
import OsLabs.LineCutting

/-!
# The buffered reader and the writer

The model of the Rio package in `webserver/common.c`. What the calls of `read` and `write` on a
descriptor will answer is given by a list, the next answer first. A descriptor whose list is empty
is at its end when it is read, and takes everything at once when it is written to.

`usrbuf` is a region of memory that goes on behind the buffer of the caller, so that a write
behind the end of the buffer can be seen.
-/

namespace OsLabs
namespace RioModel

open Bytes LineCutting
open FsModel (toInt32 toSize)

def rioBufsize : ℕ := 8192

/-- What a successful `read` into `rio_buf` can bring. -/
abbrev Chunk := {l : List Byte // l ≠ [] ∧ l.length ≤ rioBufsize}

/-- The answer of `read`: some bytes, or -1 with `EINTR` or with another error. -/
inductive ReadResult
  | data (chunk : Chunk)
  | interrupted
  | failed

/-- `struct rio`, with the answers of `read` on its descriptor. -/
structure Rio where
  rioFd : List ReadResult
  rioCnt : ℤ
  rioBufptr : ℕ
  rioBuf : Region

/-- The buffer comes from `malloc`. -/
def rioInit (fd : List ReadResult) (buf : Region) : Rio := ⟨fd,0,0,buf⟩

/-- The loop of `rio_readb` that fills the empty buffer, with the value that it returns in the
middle, if it does. -/
def refill : List ReadResult → Rio → Option ℤ × Rio
  | [], rp => (some 0,{ rp with rioFd := [], rioCnt := 0 })
  | .data chunk::fd, rp =>
    (none,⟨fd,chunk.1.length,0,copyIn rp.rioBuf 0 chunk.1⟩)
  | .interrupted::fd, rp => refill fd { rp with rioCnt := -1 }
  | .failed::fd, rp => (some (-1),{ rp with rioFd := fd, rioCnt := -1 })

/-- `rio_readb`, with the bytes it copies to the caller. -/
def rioReadb (rp : Rio) (n : ℕ) : ℤ × List Byte × Rio :=
  let (ret,rp) := if rp.rioCnt ≤ 0 then refill rp.rioFd rp else (none,rp)
  match ret with
  | some rc => (rc,[],rp)
  | none =>
    let cnt := if toSize rp.rioCnt < n then rp.rioCnt else toInt32 n
    (cnt,copyOut rp.rioBuf rp.rioBufptr cnt.toNat,
      { rp with rioBufptr := rp.rioBufptr+cnt.toNat, rioCnt := rp.rioCnt-cnt })

structure Line where
  ret : ℤ
  usrbuf : Region
  rp : Rio

def newline : Byte := 10

def terminate (n : ℤ) (bufp : ℕ) (usrbuf : Region) (rp : Rio) : Line :=
  ⟨n,Function.update usrbuf bufp 0,rp⟩

/-- The loop of `rio_readlineb`; the first argument bounds the number of its iterations. The
variable `n` is an `int`, and is compared with `maxlen` as a `size_t`. -/
def lineLoop (maxlen : ℕ) : ℕ → ℤ → ℕ → Region → Rio → Option Line
  | 0, _, _, _, _ => none
  | iterations+1, n, bufp, usrbuf, rp =>
    if toSize n < maxlen then
      let (rc,bytes,rp) := rioReadb rp 1
      if rc = 1 then
        let c := bytes.headD 0
        let usrbuf := Function.update usrbuf bufp c
        if c = newline then some (terminate (toInt32 (n+1)) (bufp+1) usrbuf rp)
        else lineLoop maxlen iterations (toInt32 (n+1)) (bufp+1) usrbuf rp
      else if rc = 0 then
        if n = 0 then some ⟨0,usrbuf,rp⟩ else some (terminate n bufp usrbuf rp)
      else some ⟨-1,usrbuf,rp⟩
    else some (terminate n bufp usrbuf rp)

def ReadResult.bytes : ReadResult → List Byte
  | .data chunk => chunk.1
  | _ => []

/-- The bytes that wait in the buffer and behind the descriptor. -/
def unread (rp : Rio) : List Byte :=
  copyOut rp.rioBuf rp.rioBufptr rp.rioCnt.toNat ++ rp.rioFd.flatMap ReadResult.bytes

/-- Every iteration but the last takes a byte. -/
def rioReadlineb (rp : Rio) (usrbuf : Region) (maxlen : ℕ) : Option Line :=
  lineLoop maxlen ((unread rp).length+1) 0 0 usrbuf rp

/-- The results of some calls on one `struct rio`, with the bytes in the caller's buffer. -/
def readLines (maxlen : ℕ) : ℕ → Rio → Region → Option (List (ℤ × List Byte))
  | 0, _, _ => some []
  | calls+1, rp, usrbuf => do
    let line ← rioReadlineb rp usrbuf maxlen
    let lines ← readLines maxlen calls line.rp line.usrbuf
    some ((line.ret,copyOut line.usrbuf 0 line.ret.toNat)::lines)

/-! ### What a reader delivers -/

/-- The calls of `read` fail with `EINTR` only, and the reader delivers these bytes. -/
structure Delivers (rp : Rio) (stream : List Byte) : Prop where
  fd : .failed ∉ rp.rioFd
  inside : 0 < rp.rioCnt → rp.rioBufptr+rp.rioCnt ≤ rioBufsize
  unread_eq : unread rp = stream

variable {rp : Rio} {stream : List Byte} {usrbuf : Region} {maxlen : ℕ}

theorem delivers_init {fd : List ReadResult} (h : .failed ∉ fd) (buf : Region) :
    Delivers (rioInit fd buf) (fd.flatMap ReadResult.bytes) where
  fd := h
  inside hpos := absurd hpos (lt_irrefl 0)
  unread_eq := by simp [unread,rioInit,copyOut]

/-- The loop either finds the end of the stream, or fills the buffer. -/
theorem refill_spec {fd : List ReadResult} (hf : .failed ∉ fd) (rp : Rio) :
    (fd.flatMap ReadResult.bytes = [] ∧ ∃ rp', refill fd rp = (some 0,rp') ∧ Delivers rp' []) ∨
    ∃ rp', refill fd rp = (none,rp') ∧ 0 < rp'.rioCnt ∧
      Delivers rp' (fd.flatMap ReadResult.bytes) := by
  induction fd generalizing rp with
  | nil =>
    refine .inl ⟨rfl,_,rfl,by simp,fun hpos => absurd hpos (lt_irrefl 0),?_⟩
    simp [unread,copyOut]
  | cons r fd ih =>
    have hfd : .failed ∉ fd := fun hm => hf (List.mem_cons_of_mem _ hm)
    cases r with
    | data chunk =>
      have hpos := List.length_pos_iff.mpr chunk.2.1
      have hcopy : copyOut (copyIn rp.rioBuf 0 chunk.1) 0 chunk.1.length = chunk.1 := by
        have h := copyOut_copyIn rp.rioBuf (o := 0) (a := 0) (l := chunk.1) (n := chunk.1.length)
          (by simp)
        simpa using h
      refine .inr ⟨_,rfl,by simpa using hpos,hfd,fun _ => ?_,?_⟩
      · have hle := chunk.2.2
        simpa using hle
      · simp [unread,hcopy,ReadResult.bytes]
    | interrupted => exact ih hfd _
    | failed => exact absurd List.mem_cons_self hf

theorem take_byte (h : Delivers rp stream) (hpos : 0 < rp.rioCnt) :
    ∃ b rest, stream = b::rest ∧ copyOut rp.rioBuf rp.rioBufptr 1 = [b] ∧
      Delivers { rp with rioBufptr := rp.rioBufptr+1, rioCnt := rp.rioCnt-1 } rest := by
  have hsplit : copyOut rp.rioBuf rp.rioBufptr rp.rioCnt.toNat =
      rp.rioBuf rp.rioBufptr::copyOut rp.rioBuf (rp.rioBufptr+1) (rp.rioCnt-1).toNat := by
    obtain ⟨k,hk⟩ : ∃ k, rp.rioCnt.toNat = k+1 := ⟨rp.rioCnt.toNat-1,by omega⟩
    have hk' : (rp.rioCnt-1).toNat = k := by omega
    rw [hk,hk',copyOut,List.range_succ_eq_map,List.map_cons,List.map_map,copyOut]
    simp [Function.comp_def,Nat.add_assoc,Nat.add_comm 1]
  refine ⟨rp.rioBuf rp.rioBufptr,_,?_,by simp [copyOut],h.fd,fun _ => ?_,rfl⟩
  · rw [← h.unread_eq,unread,hsplit]
    rfl
  · have hinside := h.inside hpos
    push_cast
    omega

/-- One byte is read until the end of the stream, whatever the answers of `read` are. -/
theorem rioReadb_spec (h : Delivers rp stream) :
    match stream with
    | [] => ∃ rp', rioReadb rp 1 = (0,[],rp') ∧ Delivers rp' []
    | b::rest => ∃ rp', rioReadb rp 1 = (1,[b],rp') ∧ Delivers rp' rest := by
  have hfilled : ∀ rp', Delivers rp' stream → 0 < rp'.rioCnt →
      (if rp.rioCnt ≤ 0 then refill rp.rioFd rp else (none,rp)) = (none,rp') →
      ∃ b rest rp'', stream = b::rest ∧ rioReadb rp 1 = (1,[b],rp'') ∧ Delivers rp'' rest := by
    intro rp' hd hpos he
    obtain ⟨b,rest,hs,hcopy,hd'⟩ := take_byte hd hpos
    have hinside := hd.inside hpos
    have hcnt : ¬ toSize rp'.rioCnt < 1 := by
      simp only [toSize,rioBufsize] at *
      omega
    refine ⟨b,rest,_,hs,?_,hd'⟩
    have hone : toInt32 1 = 1 := by decide
    simp [rioReadb,he,hcnt,hone,hcopy]
  by_cases hpos : 0 < rp.rioCnt
  · obtain ⟨b,rest,rp'',rfl,hr,hd⟩ := hfilled rp h hpos (if_neg (not_le.mpr hpos))
    exact ⟨rp'',hr,hd⟩
  · have hle := not_lt.mp hpos
    have hzero : rp.rioCnt.toNat = 0 := by omega
    have hstream : rp.rioFd.flatMap ReadResult.bytes = stream := by
      simpa [unread,hzero,copyOut] using h.unread_eq
    rcases refill_spec h.fd rp with ⟨hnil,rp',hr,hd⟩ | ⟨rp',hr,hcnt,hd⟩
    · obtain rfl := hnil.symm.trans hstream
      exact ⟨rp',by simp [rioReadb,hle,hr],hd⟩
    · obtain ⟨b,rest,rp'',rfl,hr',hd'⟩ := hfilled rp' (hstream ▸ hd) hcnt (by rw [if_pos hle,hr])
      exact ⟨rp'',hr',hd'⟩

end RioModel
end OsLabs

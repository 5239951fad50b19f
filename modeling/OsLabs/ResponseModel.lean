import OsLabs.DecimalText
import OsLabs.RequestHeaders

/-!
# The response to a request

The model of `request_sendfile` in `webserver/request.c` and of `client_print` in
`webserver/client.c`, with `rio_write` and what they use of `sprintf` and `sscanf`. An
`unsigned int` is `BitVec 32`.

`request_processfile` takes time only, and what the client prints is left out.
-/

namespace OsLabs
namespace ResponseModel

open Bytes RioModel RequestHeaders DecimalText
open CacheModel (FileName)
open RequestModel (isspace)
open FsModel (toInt32)

def maxBuf : ℕ := 8192

def text (s : String) : List Byte := s.toList.map fun c => BitVec.ofNat 8 c.toNat

/-! ### Writing -/

/-- The answer of `write`: `k+1` bytes are taken, or as many as there are; or -1 with `EINTR` or
with another error. -/
inductive WriteResult
  | wrote (k : ℕ)
  | interrupted
  | failed

/-- `rio_write`: the success, the answers that are left, and the bytes that are sent. -/
def rioWrite : List WriteResult → List Byte → Bool × List WriteResult × List Byte
  | [], bufp => (true,[],bufp)
  | r::fd, bufp =>
    if bufp = [] then (true,r::fd,[])
    else match r with
      | .wrote k =>
        let (ok,fd,sent) := rioWrite fd (bufp.drop (k+1))
        (ok,fd,bufp.take (k+1) ++ sent)
      | .interrupted => rioWrite fd bufp
      | .failed => (false,fd,[])

/-- A file that was read; `file_size` is the number of its bytes. -/
structure FileContents where
  fileName : FileName
  fileBuf : List Byte

def requestGetFileType (filename : FileName) : List Byte :=
  if text ".html" <:+: filename.1 then text "text/html"
  else if text ".gif" <:+: filename.1 then text "image/gif"
  else if text ".jpg" <:+: filename.1 then text "image/jpeg"
  else text "text/plain"

/-- The sum of the bytes as `unsigned int`. -/
def addBytes (csum : BitVec 32) (l : List Byte) : BitVec 32 :=
  l.foldl (fun csum c => csum+c.setWidth 32) csum

/-- `%d` of `sprintf` -/
def formatInt (n : ℤ) : List Byte := if n < 0 then text "-" ++ decimal n.natAbs else decimal n.natAbs

/-- `%u` of `sprintf` -/
def formatUnsigned (n : BitVec 32) : List Byte := decimal n.toNat

/-- What `request_sendfile` puts together in `buf`. -/
def responseHeader (data : FileContents) : List Byte :=
  text "HTTP/1.0 200 OK\r\n" ++ (text "Server: OS Web Server\r\n" ++
    (text "Content-Type: " ++ requestGetFileType data.fileName ++ text "\r\n" ++
      (text "Content-Length: " ++ formatInt data.fileBuf.length ++ text "\r\n" ++
        (text "Content-Csum: " ++ formatUnsigned (addBytes 0 data.fileBuf) ++ text "\r\n\r\n"))))

/-- The bytes that `request_sendfile` sends, unless an error makes the server exit. The header is
sent up to its first zero. -/
def requestSendfile (data : FileContents) (fd : List WriteResult) : Option (List Byte) :=
  let (ok,fd,header) := rioWrite fd ((responseHeader data).takeWhile (· ≠ 0))
  if ok then
    if data.fileBuf.length > 0 then
      let (ok,_,body) := rioWrite fd data.fileBuf
      if ok then some (header ++ body) else none
    else some header
  else none

/-! ### Scanning -/

inductive Directive
  | literal (c : Byte)
  | space
  | number

/-- The number that `%d` or `%u` takes: white space, a sign, and the longest run of digits. -/
def scanNumber (s : List Byte) : Option (ℤ × List Byte) :=
  let s := s.dropWhile isspace
  let negative := s.head? = some 45
  let digits := if negative ∨ s.head? = some 43 then s.tail else s
  if digits.takeWhile isDigit = [] then none
  else
    let v : ℤ := value (digits.takeWhile isDigit)
    some (if negative then -v else v,digits.dropWhile isDigit)

/-- The numbers that `sscanf` assigns, until the text does not match. -/
def sscanf : List Directive → List Byte → List ℤ
  | [], _ => []
  | .literal _::_, [] => []
  | .literal c::format, x::s => if x = c then sscanf format s else []
  | .space::format, s => sscanf format (s.dropWhile isspace)
  | .number::format, s =>
    match scanNumber s with
    | none => []
    | some (v,s) => v::sscanf format s

/-- `"Content-Length: %d "` -/
def lengthFormat : List Directive :=
  (text "Content-Length:").map .literal ++ [.space,.number,.space]

/-- `"Content-Csum: %u "` -/
def csumFormat : List Directive :=
  (text "Content-Csum:").map .literal ++ [.space,.number,.space]

/-! ### `client_print` -/

structure Header where
  rio : Rio
  buf : Region
  n : ℤ
  length : ℤ
  csum : BitVec 32

def scanLine (str : List Byte) (h : Header) : Header :=
  { h with
    length := match sscanf lengthFormat str with
      | v::_ => toInt32 v
      | [] => h.length
    csum := match sscanf csumFormat str with
      | v::_ => BitVec.ofInt 32 v
      | [] => h.csum }

/-- The loop over the lines of the header; the first argument bounds its iterations. The zero that
ends the line in `buf` may stand behind the array. -/
def headerLoop : ℕ → Header → Option Header
  | 0, _ => none
  | iterations+1, h =>
    if strcmp h.buf crlf = false ∧ 0 < h.n then do
      let line ← readlineOrExit h.rio h.buf maxBuf
      let str ← toCString (copyOut line.usrbuf 0 (maxBuf+1))
      headerLoop iterations
        (scanLine str.1 { h with rio := line.rp, buf := line.usrbuf, n := line.ret })
    else some h

/-- The loop over the body: the bytes that were received, and their sum. -/
def bodyLoop : ℕ → Rio → Region → ℤ → BitVec 32 → Option (ℤ × BitVec 32)
  | 0, _, _, _, _ => none
  | iterations+1, rio, buf, lengthReceived, csumReceived => do
    let line ← readlineOrExit rio buf maxBuf
    let lengthReceived := toInt32 (lengthReceived+line.ret)
    let csumReceived := addBytes csumReceived (copyOut line.usrbuf 0 line.ret.toNat)
    if 0 < line.ret then bodyLoop iterations line.rp line.usrbuf lengthReceived csumReceived
    else some (lengthReceived,csumReceived)

structure Printed where
  length : ℤ
  csum : BitVec 32
  lengthReceived : ℤ
  csumReceived : BitVec 32

/-- The assertions of `client_print`. -/
structure Printed.Asserted (p : Printed) (origCsum : BitVec 32) (origLength : ℤ) : Prop where
  origCsum : origCsum = p.csum
  origLength : origLength = p.length
  length : p.length = p.lengthReceived
  csum : p.csum = p.csumReceived

/-- `client_print` up to its assertions. The memory behind the two buffers is not initialised. -/
def clientPrint (iterations : ℕ) (fd : List ReadResult) (rioBuf buf : Region) : Option Printed := do
  let line ← readlineOrExit (rioInit fd rioBuf) buf maxBuf
  let h ← headerLoop iterations ⟨line.rp,line.usrbuf,line.ret,0,0⟩
  let (lengthReceived,csumReceived) ← bodyLoop iterations h.rio h.buf 0 0
  some ⟨h.length,h.csum,lengthReceived,csumReceived⟩

end ResponseModel
end OsLabs

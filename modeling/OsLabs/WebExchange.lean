import OsLabs.ErrorPages

/-!
# A request and its answer

The model of `client_send` in `webserver/client.c`, of `request_init` in `webserver/request.c` with
the reader that it uses, and of `do_server_request` without a cache. A client gets the file that it
asked for, or the error page, however the two connections divide the streams; for that its name
must have no white space.
-/

namespace OsLabs
namespace WebExchange

open LineCutting RioModel LineReading RequestHeaders ResponseRoundTrip ErrorPages
open Bytes hiding CString
open ResponseModel hiding scanLine
open CacheModel (FileName)
open RequestModel (CString Request RequestError FileStat requestInit requestReadfile requestParseURI
  scanWord scanLine strcasecmp isspace maxLine)

/-! ### The code -/

/-- What `client_send` puts into `buf`. -/
def requestText (host filename : CString) : List Byte :=
  text "GET " ++ filename.1 ++ text " HTTP/1.0\r\n" ++ (text "host: " ++ host.1 ++ text "\r\n\r\n")

/-- The bytes that `client_send` sends. A text that does not fit goes on behind `buf`. -/
def clientSend (host filename : CString) (fd : List WriteResult) : Option (List Byte) :=
  if maxLine ≤ (requestText host filename).length then none
  else
    let (ok,_,sent) := rioWrite fd (requestText host filename)
    if ok then some sent else none

/-- `request_init`. The arrays `buf`, `method` and `uri` and the one of `request_read_headers` are
not initialised; the first argument bounds the lines of the header. -/
def receiveRequest (calls : ℕ) (fd : List ReadResult) (rioBuf buf headerBuf : Region)
    (method uri : CString) (stat : FileStat) : Option (Except RequestError FileName) := do
  let line ← readlineOrExit (rioInit fd rioBuf) buf maxLine
  let str ← toCString (copyOut line.usrbuf 0 (maxLine+1))
  match requestInit ⟨str,method,uri,stat⟩ with
  | .error e => some (.error e)
  | .ok filename => do
    let _ ← requestReadHeaders calls line.rp headerBuf
    some (.ok filename)

/-- What is found under a name. -/
inductive DiskFile
  | missing | forbidden
  | file (contents : {l : List Byte // l.length < 2^31})

def DiskFile.stat : DiskFile → FileStat
  | .missing => .missing
  | .forbidden => .forbidden
  | .file contents => .file (BitVec.ofNat 32 contents.1.length)

def DiskFile.contents : DiskFile → List Byte
  | .file contents => contents.1
  | _ => []

/-- A word of the request line. -/
def Word (l : List Byte) : Prop := l ≠ [] ∧ ∀ c ∈ l, isspace c = false

instance (l : List Byte) : Decidable (Word l) :=
  inferInstanceAs (Decidable (l ≠ [] ∧ ∀ c ∈ l, isspace c = false))

variable {host name : CString}

theorem Word.plain (hw : Word name.1) : Plain name.1 := by
  refine fun c hc => ⟨?_,?_⟩
  · rintro rfl
    exact absurd (hw.2 newline hc) (by decide)
  · rintro rfl
    exact name.2 hc

theorem scanWord_word {buf word rest : CString} (h : scanWord buf = some (word,rest)) : Word word.1 := by
  unfold scanWord at h
  dsimp only at h
  obtain ⟨hne,h⟩ := Option.ite_none_left_eq_some.mp h
  obtain ⟨rfl,-⟩ := Prod.mk.inj (Option.some.inj h)
  refine ⟨?_,fun c hc => ?_⟩
  · intro hnil
    cases hd : buf.1.dropWhile isspace with
    | nil => exact hne hd
    | cons c l =>
      have hc := List.head_dropWhile_not isspace (l := buf.1) (by rw [hd]; simp)
      simp only [hd,List.head_cons] at hc
      change (buf.1.dropWhile isspace).takeWhile (!isspace ·) = [] at hnil
      rw [hd,List.takeWhile_cons_of_pos (by simp [hc])] at hnil
      cases hnil
  · have hpos := List.mem_takeWhile_imp hc
    simpa using hpos

/-- The URI of a request has no white space, unless the array had before. -/
theorem scanLine_word (rq : Request) (h : Word rq.uri.1) : Word (scanLine rq).2.1 := by
  unfold scanLine
  cases hm : scanWord rq.line with
  | none => exact h
  | some r =>
    obtain ⟨method,rest⟩ := r
    cases hu : scanWord rest with
    | none =>
      simp only [hu]
      exact h
    | some r =>
      obtain ⟨uri,rest'⟩ := r
      simp only [hu]
      exact scanWord_word hu

theorem scanWord_append {buf : CString} {blanks word rest : List Byte} {c : Byte}
    (hbuf : buf.1 = blanks ++ (word ++ c::rest)) (hb : ∀ b ∈ blanks, isspace b = true) (hw : Word word)
    (hc : isspace c = true) : ∃ w r, scanWord buf = some (w,r) ∧ w.1 = word ∧ r.1 = c::rest := by
  have hdrop : buf.1.dropWhile isspace = word ++ c::rest := by
    rw [hbuf,List.dropWhile_append_of_pos hb]
    cases hword : word with
    | nil => exact absurd hword hw.1
    | cons x l =>
      have hx := hw.2 x (by rw [hword]; exact List.mem_cons_self)
      rw [List.cons_append,List.dropWhile_cons_of_neg (by simp [hx])]
  have hne : buf.1.dropWhile isspace ≠ [] := by rw [hdrop]; simp
  have hnot : ∀ b ∈ word, (!isspace b) = true := fun b hb => by simp [hw.2 b hb]
  refine ⟨_,_,if_neg hne,?_,?_⟩
  · show (buf.1.dropWhile isspace).takeWhile (!isspace ·) = word
    rw [hdrop,List.takeWhile_append_of_pos hnot,List.takeWhile_cons_of_neg (by simp [hc]),List.append_nil]
  · show (buf.1.dropWhile isspace).dropWhile (!isspace ·) = c::rest
    rw [hdrop,List.dropWhile_append_of_pos hnot,List.dropWhile_cons_of_neg (by simp [hc])]

/-- The line that `client_send` begins with. -/
def requestLine (filename : CString) : List Byte := text "GET " ++ filename.1 ++ text " HTTP/1.0\r\n"

theorem scanLine_requestLine (rq : Request) (hw : Word name.1) (hline : rq.line.1 = requestLine name) :
    (scanLine rq).1.1 = text "GET" ∧ (scanLine rq).2 = name := by
  have hfirst : rq.line.1 = [] ++ (text "GET" ++ 32::(name.1 ++ text " HTTP/1.0\r\n")) := by
    rw [hline,requestLine,show text "GET " = text "GET" ++ [32] by decide]
    simp
  obtain ⟨w,r,hm,hmethod,hr⟩ := scanWord_append hfirst (by simp) (by decide : Word (text "GET")) (by decide)
  have hsecond : r.1 = [32] ++ (name.1 ++ 32::text "HTTP/1.0\r\n") := by
    rw [hr,show text " HTTP/1.0\r\n" = 32::text "HTTP/1.0\r\n" by decide]
    rfl
  obtain ⟨w',r',hu,huri,-⟩ := scanWord_append hsecond (by decide) hw (by decide)
  have hscan : scanLine rq = (w,w') := by
    simp only [scanLine,hm,hu]
  rw [hscan]
  exact ⟨hmethod,Subtype.ext huri⟩

/-- The empty line behind some text that is not too long. -/
theorem crlf_mem_cut {m : ℕ} (l : List Byte) (hlen : l.length+3 ≤ m) :
    crlf ∈ cut endsLine m (l ++ newline::crlf) := by
  have hends : endsLine newline = true := by decide
  have hplain : ∀ {t : List Byte}, newline ∉ t → ∀ c ∈ t, endsLine c = false := fun ht c hc => by
    have hne : c ≠ newline := fun he => ht (he ▸ hc)
    simp [endsLine,hne]
  induction hn : l.length using Nat.strong_induction_on generalizing l with
  | _ n ih =>
    by_cases hl : newline ∈ l
    · obtain ⟨a,b,rfl,ha⟩ := List.eq_append_cons_of_mem hl
      rw [List.length_append,List.length_cons] at hn hlen
      have hb := ih b.length (by omega) b (by omega) rfl
      rw [List.append_assoc,List.cons_append,cut_line (hplain ha) hends (by omega)]
      exact List.mem_cons_of_mem _ hb
    · have hcr : newline ∉ [(13 : Byte)] := by decide
      have hlast : cut endsLine m crlf = [crlf] := cut_line (hplain hcr) hends (by simp; omega) []
      rw [cut_line (hplain hl) hends (by omega),hlast]
      simp

/-- The loop over the header of a request ends at its empty line. -/
theorem returns_of_mem_cut {rp : Rio} {stream : List Byte} (h : Delivers rp stream) (buf : Region)
    (hc : crlf ∈ cut endsLine maxLine stream) : Returns rp buf := by
  have hpos : 0 < maxLine := by decide
  induction stream using induction_on_pieces endsLine hpos generalizing rp buf with
  | nil => simp at hc
  | step stream hs ih =>
    obtain ⟨rp',hr,hd⟩ := readlineOrExit_spec (by decide : maxLine < 2^31) buf h hs
    by_cases hsame : strcmp (held buf (piece endsLine maxLine stream)) crlf = true
    · exact returns_of_strcmp hr hsame
    · rw [cut_eq endsLine hpos hs,List.mem_cons] at hc
      have hrest := hc.resolve_left fun he => hsame ((strcmp_held hpos buf hs).mpr he.symm)
      exact (returns_iff_of_not_strcmp hr hsame).mpr (ih hd _ hrest)

/-! ### The server gets the name -/

section Requests

theorem requestText_eq (host name : CString) : requestText host name =
    requestLine name ++ ((text "host: " ++ host.1 ++ [13]) ++ newline::crlf) := by
  have hend : text "\r\n\r\n" = [13] ++ newline::crlf := by decide
  rw [requestText,hend]
  simp only [requestLine,List.append_assoc]

variable (hfit : (requestText host name).length < maxLine)

include hfit in
theorem length_requestText :
    (requestLine name).length+(text "host: " ++ host.1 ++ [13]).length+3 < 8192 := by
  have hmax : maxLine = 8192 := rfl
  have hcrlf : (newline::crlf).length = 3 := rfl
  rw [requestText_eq,← List.append_assoc,List.length_append,List.length_append,hcrlf] at hfit
  omega

include hfit in
/-- The name is too short to be cut off. -/
theorem length_name : ([46,47] ++ name.1).length ≤ maxLine-2 := by
  have hlen := length_requestText hfit
  have hget : (text "GET ").length = 4 := by decide
  rw [requestLine,List.append_assoc,List.length_append,List.length_append] at hlen
  simp only [maxLine,List.length_append,List.length_cons,List.length_nil]
  omega

include hfit in
theorem requestParseURI_short : (requestParseURI name maxLine).1 = [46,47] ++ name.1 :=
  List.take_of_length_le ((length_name hfit).trans (Nat.sub_le_sub_left (by decide) _))

theorem requestLine_header (hw : Word name.1) (hlen : (requestLine name).length < 8192) :
    HeaderLine (requestLine name) := by
  have hend : text " HTTP/1.0\r\n" = text " HTTP/1.0" ++ text "\r\n" := by decide
  have hsplit : requestLine name = text "GET " ++ name.1 ++ text " HTTP/1.0" ++ text "\r\n" := by
    rw [requestLine,hend]
    simp only [List.append_assoc]
  rw [hsplit] at hlen ⊢
  refine headerLine_of_plain (((by decide : Plain (text "GET ")).append hw.plain).append (by decide)) ?_
  have hcrlf : (text "\r\n").length = 2 := by decide
  rw [List.length_append,hcrlf] at hlen
  omega

include hfit in
theorem clientSend_spec {writes : List WriteResult} (hwrites : .failed ∉ writes) :
    clientSend host name writes = some (requestText host name) := by
  obtain ⟨fd',hr,-⟩ := rioWrite_spec hwrites (requestText host name)
  simp only [clientSend,if_neg (not_le.mpr hfit),hr,if_true]

variable {reads : List ReadResult} (hreads : .failed ∉ reads)
  (hsent : reads.flatMap ReadResult.bytes = requestText host name)

include hfit hreads hsent in
/-- However the stream is divided, a name without white space is received as it is. -/
theorem receiveRequest_spec (hw : Word name.1) (rioBuf buf headerBuf : Region) (method uri : CString)
    (stat : FileStat) : ∃ calls filename,
      receiveRequest calls reads rioBuf buf headerBuf method uri stat = some (.ok filename) ∧
        filename.1 = [46,47] ++ name.1 := by
  have hlen := length_requestText hfit
  have hheader := requestLine_header hw (by omega)
  have hd := delivers_init hreads rioBuf
  rw [hsent,requestText_eq] at hd
  obtain ⟨rp,hr,hd'⟩ : ∃ rp, readlineOrExit (rioInit reads rioBuf) buf maxLine =
      some ⟨(requestLine name).length,held buf (requestLine name),rp⟩ ∧ Delivers rp _ :=
    hheader.read buf hd
  have hstr : toCString (copyOut (held buf (requestLine name)) 0 (maxLine+1)) =
      some ⟨requestLine name,hheader.zero⟩ := toCString_held hheader.zero hheader.short buf
  have hinit : requestInit ⟨⟨requestLine name,hheader.zero⟩,method,uri,stat⟩ =
      .ok (requestParseURI name maxLine) := by
    obtain ⟨hmethod,huri⟩ :=
      scanLine_requestLine ⟨⟨requestLine name,hheader.zero⟩,method,uri,stat⟩ hw rfl
    have hget : strcasecmp (text "GET") [71,69,84] = true := by decide
    simp only [requestInit,hmethod,huri,hget,if_true]
  have hcrlf : crlf ∈ cut endsLine maxLine _ :=
    crlf_mem_cut (text "host: " ++ host.1 ++ [13]) (by simp only [maxLine]; omega)
  obtain ⟨calls,rp',hcalls⟩ := returns_of_mem_cut hd' headerBuf hcrlf
  refine ⟨calls,requestParseURI name maxLine,?_,requestParseURI_short hfit⟩
  simp only [receiveRequest,hr,hstr,hinit,hcalls,Option.bind_eq_bind,Option.bind_some]

/-- A name that the server has found in a request has no white space. -/
theorem receiveRequest_word {calls : ℕ} {rioBuf buf headerBuf : Region} {method uri : CString}
    {stat : FileStat} {filename : FileName} (hw : Word uri.1)
    (h : receiveRequest calls reads rioBuf buf headerBuf method uri stat = some (.ok filename)) :
    ∃ word, Word word ∧ filename.1 = ([46,47] ++ word).take (maxLine-1) := by
  simp only [receiveRequest,Option.bind_eq_bind,Option.bind_eq_some_iff] at h
  obtain ⟨line,-,str,-,h⟩ := h
  cases hinit : requestInit ⟨str,method,uri,stat⟩ with
  | error e => simp [hinit] at h
  | ok parsed =>
    simp only [hinit,Option.bind_eq_some_iff] at h
    obtain ⟨rp,-,h⟩ := h
    obtain rfl : parsed = filename := by simpa using h
    unfold requestInit at hinit
    dsimp only at hinit
    split at hinit
    · cases hinit
      exact ⟨_,scanLine_word _ hw,rfl⟩
    · cases hinit

end Requests

/-- A request that fits into `buf` is sent; the server gets the name that the client asked for,
whatever its arrays held and however `write` and `read` divide the stream, if and only if the name is
a word. -/
theorem request_round_trip (hfit : (requestText host name).length < maxLine) {writes : List WriteResult}
    (hwrites : .failed ∉ writes) : ∃ sent, clientSend host name writes = some sent ∧
      ∀ reads : List ReadResult, .failed ∉ reads → reads.flatMap ReadResult.bytes = sent →
        ((∀ rioBuf buf headerBuf method uri stat, ∃ calls filename,
          receiveRequest calls reads rioBuf buf headerBuf method uri stat = some (.ok filename) ∧
            filename.1 = [46,47] ++ name.1) ↔ Word name.1) := by
  refine ⟨_,clientSend_spec hfit hwrites,fun reads hreads hsent => ⟨fun h => ?_,fun hw => ?_⟩⟩
  · let letter : CString := ⟨[120],by decide⟩
    obtain ⟨calls,filename,hr,hname⟩ := h (fun _ => 0) (fun _ => 0) (fun _ => 0) letter letter .missing
    obtain ⟨word,hw,hword⟩ := receiveRequest_word (by decide : Word letter.1) hr
    have hshort := length_name hfit
    have hcut : ([46,47] ++ word).length ≤ maxLine-1 := by
      have hlength := congrArg List.length (hname.symm.trans hword)
      rw [List.length_take] at hlength
      simp only [maxLine] at *
      omega
    rw [hname,List.take_of_length_le hcut] at hword
    obtain rfl := List.append_cancel_left hword
    exact hw
  · exact receiveRequest_spec hfit hreads hsent hw

/-- A page of a local server -/
def localHost : CString := ⟨text "localhost",by decide⟩
def aHtml : CString := ⟨text "a.html",by decide⟩

def aReads : List ReadResult :=
  [.data ⟨text "GET a.html HTTP/1.0\r\nhost: loc",by decide⟩,.interrupted,
    .data ⟨text "alhost\r\n\r\n",by decide⟩]

theorem aHtml_received : ∃ calls filename, receiveRequest calls aReads (fun _ => 0) (fun _ => 0)
    (fun _ => 0) aHtml aHtml .missing = some (.ok filename) ∧ filename.1 = text "./a.html" := by
  obtain ⟨sent,hsent,hread⟩ := request_round_trip (by decide : (requestText localHost aHtml).length < _)
    (by simp : .failed ∉ [WriteResult.wrote 3,.interrupted])
  have hsame : some (aReads.flatMap ReadResult.bytes) = some sent := by
    rw [← hsent]
    decide
  exact (hread aReads (by simp [aReads]) (Option.some.inj hsame)).mpr (by decide) (fun _ => 0)
    (fun _ => 0) (fun _ => 0) aHtml aHtml .missing

/-! ### The client gets the file -/

variable (disk : FileName → DiskFile) {filename : FileName} {writes : List WriteResult}

end WebExchange
end OsLabs

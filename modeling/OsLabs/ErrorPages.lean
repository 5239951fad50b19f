import OsLabs.ResponseRoundTrip

/-!
# Error pages

The model of `request_error` in `webserver/request.c`. The page is put together in an array of
`MAXBUF` characters, together with the name or the method that was refused, and the client
reads it as it reads a file.
-/

namespace OsLabs
namespace ErrorPages

open Bytes RioModel RequestHeaders DecimalText ResponseModel ResponseRoundTrip
open FsModel (toInt32)
open RequestModel (RequestError requestInit requestReadfile)

/-- What `request_error` puts together in `body`. -/
def errorBody (e : RequestError) : List Byte :=
  text "<html><title>OS Web Server Error</title>" ++ (text "<body bgcolor=fffff>\r\n" ++
    (text "<p>" ++ text e.errnum ++ text ": " ++ text e.shortmsg ++ text "</p>\r\n" ++
      (text "<p>" ++ text e.longmsg ++ text ": " ++ e.cause.1 ++ text "</p>\r\n" ++
        text "</body></html>\r\n")))

/-- The four texts that are put into `buf`, and the page. -/
def errorTexts (e : RequestError) : List (List Byte) :=
  [text "HTTP/1.0 " ++ text e.errnum ++ text " " ++ text e.shortmsg ++ text "\r\n",
    text "Content-Type: text/html\r\n",
    text "Content-Length: " ++ formatInt (errorBody e).length ++ text "\r\n",
    text "Content-Csum: " ++ formatUnsigned (addBytes 0 (errorBody e)) ++ text "\r\n\r\n",
    errorBody e]

/-- Some calls of `Rio_write`, which exits on an error. -/
def writeAll : List (List Byte) → List WriteResult → Option (List Byte)
  | [], _ => some []
  | buf::bufs, fd =>
    let (ok,fd,sent) := rioWrite fd buf
    if ok then (writeAll bufs fd).map (sent ++ ·) else none

/-- The bytes that `request_error` sends. A page that does not fit goes on behind `body`. -/
def requestError (e : RequestError) (fd : List WriteResult) : Option (List Byte) :=
  if maxBuf ≤ (errorBody e).length then none else writeAll (errorTexts e) fd

/-! ### The errors of the server -/

/-- `request_init` or `request_readfile` reports the error. -/
def Reported (e : RequestError) : Prop :=
  (∃ rq, requestInit rq = .error e) ∨ ∃ fileName sbuf, requestReadfile fileName sbuf = .error e

/-- The texts of the errors. -/
def messages : List (String × String × String) :=
  [("501","Not Implemented","OS Web Server does not implement this method"),
    ("404","Not found","OS Web Server doesn't serve files with absolute paths"),
    ("404","Not found","OS Web Server doesn't serve files with .. in the path"),
    ("404","Not found","OS Web Server doesn't serve C or header files "),
    ("404","Not found","OS Web Server could not find this file"),
    ("403","Forbidden","OS Web Server could not read this file")]

theorem reported_message {e : RequestError} (h : Reported e) :
    (e.errnum,e.shortmsg,e.longmsg) ∈ messages := by
  rcases h with ⟨rq,h⟩ | ⟨fileName,sbuf,h⟩
  · unfold requestInit at h
    dsimp only at h
    split at h
    · cases h
    · cases h
      simp [messages]
  · unfold requestReadfile at h
    split at h
    · cases h
      simp [messages]
    split at h
    · cases h
      simp [messages]
    split at h
    · cases h
      simp [messages]
    split at h <;> cases h <;> simp [messages]

theorem messages_short : ∀ m ∈ messages, (text m.1).length = 3 ∧ Plain (text m.1) ∧
    (text m.2.1).length ≤ 15 ∧ Plain (text m.2.1) ∧ (text m.2.2).length ≤ 53 := by
  simp [messages,text,Plain,newline]

variable {e : RequestError}

theorem length_errorBody (h : Reported e) : (errorBody e).length =
    103+(text e.shortmsg).length+(text e.longmsg).length+e.cause.1.length := by
  have hnum := (messages_short _ (reported_message h)).1
  simp only [errorBody,List.length_append,hnum]
  have h₁ : (text "<html><title>OS Web Server Error</title>").length = 40 := by decide
  have h₂ : (text "<body bgcolor=fffff>\r\n").length = 22 := by decide
  have h₃ : (text "<p>").length = 3 := by decide
  have h₄ : (text "</p>\r\n").length = 6 := by decide
  have h₅ : (text "</body></html>\r\n").length = 16 := by decide
  have h₆ : (text ": ").length = 2 := by decide
  omega

/-! ### What the client reads -/

theorem writeAll_spec {fd : List WriteResult} (h : .failed ∉ fd) (bufs : List (List Byte)) :
    writeAll bufs fd = some bufs.flatten := by
  induction bufs generalizing fd with
  | nil => rfl
  | cons buf bufs ih =>
    obtain ⟨fd',hr,hfd'⟩ := rioWrite_spec h buf
    simp [writeAll,hr,ih hfd']

variable {line next rest : List Byte} {lines : List (List Byte)} {reads : List ReadResult}

/-- The loop of the client over some lines that are not empty. -/
theorem headerLoop_lines (hlines : ∀ l ∈ lines, HeaderLine l ∧ l ≠ crlf) {h : Header}
    (hs : Standing h line (lines.flatten ++ (next ++ rest))) (hl : HeaderLine line) (hne : line ≠ crlf)
    (hnext : HeaderLine next) (iterations : ℕ) :
    ∃ h', headerLoop (iterations+(lines.length+1)) h = headerLoop iterations h' ∧
      Standing h' next rest := by
  induction lines generalizing line h with
  | nil =>
    have hs : Standing h line (next ++ rest) := hs
    obtain ⟨h',hr,hs',-,-⟩ := headerLoop_step hs hl hne hnext iterations
    exact ⟨h',hr,hs'⟩
  | cons l lines ih =>
    obtain ⟨⟨hl',hne'⟩,hlines⟩ := List.forall_mem_cons.mp hlines
    rw [List.flatten_cons,List.append_assoc] at hs
    obtain ⟨h₁,hr₁,hs₁,-,-⟩ := headerLoop_step hs hl hne hl' (iterations+(lines.length+1))
    obtain ⟨h',hr,hs'⟩ := ih hlines hs₁ hl' hne'
    exact ⟨h',hr₁.trans hr,hs'⟩

theorem headerLoop_tags (data : FileContents) (hsize : data.fileBuf.length < 2^31) {h : Header}
    (hs : Standing h (typeLine data) (lengthLine data ++ (csumLine data ++ (crlf ++ rest))))
    (iterations : ℕ) : ∃ h', headerLoop (iterations+4) h = some h' ∧ Delivers h'.rio rest ∧
      h'.length = data.fileBuf.length ∧ h'.csum = addBytes 0 data.fileBuf := by
  obtain ⟨h₁,hr₁,hs₁,hlength₁,-⟩ := headerLoop_step hs (typeLine_header data) (ne_crlf rfl (by decide))
    (lengthLine_header data hsize) (iterations+3)
  obtain ⟨h₂,hr₂,hs₂,hlength₂,hcsum₂⟩ := headerLoop_step hs₁ (lengthLine_header data hsize)
    (ne_crlf rfl (by decide)) (csumLine_header data) (iterations+2)
  obtain ⟨h₃,hr₃,hs₃,hlength₃,hcsum₃⟩ := headerLoop_step hs₂ (csumLine_header data)
    (ne_crlf rfl (by decide)) crlf_header (iterations+1)
  refine ⟨h₃,?_,hs₃.rio,?_,?_⟩
  · rw [hr₁,hr₂,hr₃]
    exact headerLoop_stop hs₃ crlf_header iterations
  · rw [hlength₃,scan_crlf,hlength₂,scan_csum,hlength₁,scan_length data hsize]
  · rw [hcsum₃,scan_crlf,hcsum₂,scan_csum]

/-- A response with any first lines: the client gets the length and the sum of its body. -/
theorem clientPrint_of_tags (lines : List (List Byte)) (data : FileContents)
    (hsize : data.fileBuf.length < 2^31) (hl : HeaderLine line) (hne : line ≠ crlf) (hlines : ∀ l ∈ lines, HeaderLine l ∧ l ≠ crlf)
    (hreads : .failed ∉ reads) (hsent : reads.flatMap ReadResult.bytes = line ++ (lines.flatten ++
      (typeLine data ++ (lengthLine data ++ (csumLine data ++ (crlf ++ data.fileBuf))))))
    (rioBuf buf : Region) : ∃ iterations, clientPrint iterations reads rioBuf buf =
      some ⟨data.fileBuf.length,addBytes 0 data.fileBuf,data.fileBuf.length,addBytes 0 data.fileBuf⟩ := by
  have hd := delivers_init hreads rioBuf
  rw [hsent] at hd
  obtain ⟨rp,hr,hd₀⟩ := hl.read buf hd
  obtain ⟨h₁,hr₁,hs₁⟩ := headerLoop_lines (h := ⟨rp,held buf line,line.length,0,0⟩) hlines
    ⟨⟨buf,rfl⟩,rfl,hd₀⟩ hl hne (typeLine_header data) (data.fileBuf.length+4)
  obtain ⟨h₂,hr₂,hd₂,hlength,hcsum⟩ := headerLoop_tags data hsize hs₁ data.fileBuf.length
  have hbody := bodyLoop_spec hd₂ h₂.buf 0 0
    (by omega : data.fileBuf.length < data.fileBuf.length+4+(lines.length+1))
  have hint : toInt32 (data.fileBuf.length : ℤ) = data.fileBuf.length :=
    Int.bmod_eq_of_le (by omega) (by omega)
  have hzero : toInt32 0 = 0 := by decide
  rw [zero_add,hint,hzero] at hbody
  refine ⟨data.fileBuf.length+4+(lines.length+1),?_⟩
  simp only [clientPrint,hr,hr₁,hr₂,hbody,hlength,hcsum,Option.bind_eq_bind,Option.bind_some]

/-- The client's assertions when it has received what the header says. -/
theorem asserted_iff (length origLength : ℤ) {csum origCsum : BitVec 32} :
    (Printed.mk length csum length csum).Asserted origCsum origLength ↔
      origCsum = csum ∧ origLength = length := by
  refine ⟨fun h => ⟨h.origCsum,h.origLength⟩,?_⟩
  rintro ⟨rfl,rfl⟩
  exact ⟨rfl,rfl,rfl,rfl⟩

/-- The page as a file that the server sends. -/
def page (e : RequestError) : FileContents := ⟨⟨text ".html",by decide⟩,errorBody e⟩

/-- The first line of the response. -/
def errorLine (e : RequestError) : List Byte :=
  text "HTTP/1.0 " ++ text e.errnum ++ text " " ++ text e.shortmsg ++ text "\r\n"

theorem errorLine_header (h : Reported e) : HeaderLine (errorLine e) := by
  obtain ⟨hnum,hplain,hshort,hplain',-⟩ := messages_short _ (reported_message h)
  refine headerLine_of_plain (((Plain.append (by decide) hplain).append (by decide)).append hplain') ?_
  have h₁ : (text "HTTP/1.0 ").length = 9 := by decide
  have h₂ : (text " ").length = 1 := by decide
  simp only [List.length_append]
  simp only at hnum hshort
  omega

theorem flatten_errorTexts (e : RequestError) : (errorTexts e).flatten =
    errorLine e ++ (typeLine (page e) ++ (lengthLine (page e) ++ (csumLine (page e) ++
      (crlf ++ errorBody e)))) := by
  have hint : formatInt (errorBody e).length = decimal (errorBody e).length := if_neg (by omega)
  have hhtml : requestGetFileType ⟨text ".html",by decide⟩ = text "text/html" := by decide
  have htype : text "Content-Type: text/html\r\n" = typeLine (page e) := by
    rw [typeLine,page,hhtml]
    decide
  have hend : text "\r\n\r\n" = text "\r\n" ++ crlf := by decide
  rw [errorTexts,htype,hint,hend]
  simp only [errorLine,lengthLine,csumLine,page,formatUnsigned,List.flatten_cons,List.flatten_nil,
    List.append_assoc,List.append_nil]

/-- A page that fits into its array. -/
theorem requestError_spec (he : Reported e) (hfit : (errorBody e).length < maxBuf)
    {writes : List WriteResult} (hwrites : .failed ∉ writes) :
    ∃ sent, requestError e writes = some sent ∧
      ∀ (reads : List ReadResult) (rioBuf buf : Region), .failed ∉ reads →
        reads.flatMap ReadResult.bytes = sent →
        ∃ iterations, clientPrint iterations reads rioBuf buf =
          some ⟨(errorBody e).length,addBytes 0 (errorBody e),(errorBody e).length,
            addBytes 0 (errorBody e)⟩ := by
  have hsize : (page e).fileBuf.length < 2^31 := by
    have hbuf : maxBuf = 8192 := rfl
    change (errorBody e).length < 2^31
    omega
  refine ⟨(errorTexts e).flatten,?_,fun reads rioBuf buf hreads hsent => ?_⟩
  · rw [requestError,if_neg (not_le.mpr hfit),writeAll_spec hwrites]
  · rw [flatten_errorTexts] at hsent
    exact clientPrint_of_tags [] (page e) hsize (errorLine_header he) (ne_crlf rfl (by decide))
      (by simp) hreads hsent rioBuf buf

/-- The error pages of the server: a page is sent, and does not go on behind `body`, exactly when its
three texts have at most 8088 characters. However `write` and `read` divide the stream, the client then
gets its length and its checksum, and takes it for a file if that has the same ones. -/
theorem error_page_round_trip (he : Reported e) {writes : List WriteResult} (hwrites : .failed ∉ writes) :
    ((requestError e writes).isSome = true ↔
      (text e.shortmsg).length+(text e.longmsg).length+e.cause.1.length ≤ 8088) ∧
    ∀ sent, requestError e writes = some sent → ∀ (reads : List ReadResult) (rioBuf buf : Region),
      .failed ∉ reads → reads.flatMap ReadResult.bytes = sent →
      ∃ iterations printed, clientPrint iterations reads rioBuf buf = some printed ∧
        printed.length = printed.lengthReceived ∧ printed.csum = printed.csumReceived ∧
        ∀ origCsum origLength, printed.Asserted origCsum origLength ↔
          origCsum = addBytes 0 (errorBody e) ∧ origLength = (errorBody e).length := by
  have hlength := length_errorBody he
  have hbuf : maxBuf = 8192 := rfl
  by_cases hfit : (errorBody e).length < maxBuf
  · obtain ⟨sent,hsent,hread⟩ := requestError_spec he hfit hwrites
    rw [hsent]
    refine ⟨iff_of_true rfl (by omega),?_⟩
    rintro sent' ⟨⟩ reads rioBuf buf hreads hbytes
    obtain ⟨iterations,hp⟩ := hread reads rioBuf buf hreads hbytes
    exact ⟨iterations,_,hp,rfl,rfl,fun origCsum origLength => asserted_iff _ _⟩
  · have hnone : requestError e writes = none := if_pos (not_lt.mp hfit)
    rw [hnone]
    exact ⟨iff_of_false (by simp) (by omega),by simp⟩

/-- The error for a C file -/
def cError : RequestError :=
  ⟨⟨text "./a.c",by decide⟩,"404","Not found","OS Web Server doesn't serve C or header files "⟩

theorem cError_reported : Reported cError := .inr ⟨cError.cause,.missing,rfl⟩

theorem cError_sent : (requestError cError [.wrote 3,.interrupted]).isSome = true :=
  (error_page_round_trip cError_reported (by simp)).1.mpr (by decide)

end ErrorPages
end OsLabs

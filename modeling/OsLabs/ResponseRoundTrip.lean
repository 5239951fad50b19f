import Mathlib.Data.List.TakeWhile
import OsLabs.ResponseModel

/-!
# The client reads what the server sent

The header that the server writes is six lines, of which the fourth and the fifth carry the length
and the checksum of the body; the body is read piece by piece. Neither depends on the bytes of the
file, or on how `write` and `read` divide the stream.
-/

namespace OsLabs
namespace ResponseRoundTrip

open Bytes LineCutting RioModel LineReading RequestHeaders DecimalText ResponseModel
open FsModel (toInt32)
open RequestModel (isspace)

variable {rp : Rio} {stream rest line s : List Byte} {buf : Region} {n : ℕ}

/-! ### Writing -/

/-- Everything is sent, whatever the answers of `write` are. -/
theorem rioWrite_spec {fd : List WriteResult} (h : .failed ∉ fd) (bufp : List Byte) :
    ∃ fd', rioWrite fd bufp = (true,fd',bufp) ∧ .failed ∉ fd' := by
  induction fd generalizing bufp with
  | nil => exact ⟨[],rfl,h⟩
  | cons r fd ih =>
    have hfd : .failed ∉ fd := fun hm => h (List.mem_cons_of_mem _ hm)
    by_cases hb : bufp = []
    · exact ⟨r::fd,by simp [rioWrite,hb],h⟩
    · cases r with
      | wrote k =>
        obtain ⟨fd',hr,hfd'⟩ := ih hfd (bufp.drop (k+1))
        exact ⟨fd',by simp [rioWrite,hb,hr],hfd'⟩
      | interrupted =>
        obtain ⟨fd',hr,hfd'⟩ := ih hfd bufp
        exact ⟨fd',by simp [rioWrite,hb,hr],hfd'⟩
      | failed => exact absurd List.mem_cons_self h

/-! ### Scanning -/

theorem head_decimal (n : ℕ) : ∃ c t, decimal n = c::t ∧ isDigit c = true := by
  cases hd : decimal n with
  | nil => exact absurd hd (decimal_ne_nil n)
  | cons c t => exact ⟨c,t,rfl,isDigit_of_mem_decimal (hd ▸ List.mem_cons_self)⟩

theorem of_isDigit {c : Byte} (h : isDigit c = true) :
    isspace c = false ∧ c ≠ 45#8 ∧ c ≠ 43#8 ∧ c ≠ 0 ∧ c ≠ newline := by
  revert h c
  decide

theorem dropWhile_isspace_decimal (n : ℕ) (s : List Byte) :
    (decimal n ++ s).dropWhile isspace = decimal n ++ s := by
  obtain ⟨c,t,hd,hc⟩ := head_decimal n
  simp [hd,(of_isDigit hc).1]

theorem scanNumber_decimal (n : ℕ) {c : Byte} (hc : isDigit c = false) (s : List Byte) :
    scanNumber (decimal n ++ c::s) = some ((n : ℤ),c::s) := by
  obtain ⟨d,t,hd,hdigit⟩ := head_decimal n
  have hsign := of_isDigit hdigit
  have hhead : (decimal n ++ c::s).head? = some d := by simp [hd]
  simp [scanNumber,dropWhile_isspace_decimal,hhead,hsign.2.1,hsign.2.2.1,takeWhile_decimal n hc,
    dropWhile_decimal n hc,value_decimal,decimal_ne_nil]

theorem sscanf_literals (l : List Byte) (format : List Directive) (s : List Byte) :
    sscanf (l.map .literal ++ format) (l ++ s) = sscanf format s := by
  induction l with
  | nil => rfl
  | cons c l ih => simpa [sscanf] using ih

/-- Behind its name a tag has a blank and the number. -/
theorem sscanf_tag (l : List Byte) (n : ℕ) {c : Byte} (hc : isDigit c = false) (s : List Byte) :
    sscanf (l.map .literal ++ [.space,.number,.space]) (l ++ 32::(decimal n ++ c::s)) = [(n : ℤ)] := by
  have hblank : isspace 32#8 = true := by decide
  rw [sscanf_literals]
  simp [sscanf,hblank,dropWhile_isspace_decimal,scanNumber_decimal n hc]

/-! ### Lines without zeros -/

theorem toCString_append {p : List Byte} (hp : 0 ∉ p) (s : List Byte) :
    toCString (p ++ 0::s) = some ⟨p,hp⟩ := by
  induction p with
  | nil => rfl
  | cons b p ih =>
    obtain ⟨hb,hp'⟩ := zero_notMem_cons.mp hp
    simp only [List.cons_append,toCString,dif_neg hb,ih hp',Option.map_some]

theorem toCString_held {p : List Byte} (hp : 0 ∉ p) (hlen : p.length ≤ maxBuf) (buf : Region) :
    toCString (copyOut (held buf p) 0 (maxBuf+1)) = some ⟨p,hp⟩ := by
  have hsplit : copyOut (held buf p) 0 (maxBuf+1) =
      p ++ 0::copyOut (held buf p) (p.length+1) (maxBuf-p.length) := by
    have hrange : maxBuf+1 = p.length+(1+(maxBuf-p.length)) := by omega
    have hfirst : copyOut (held buf p) 0 p.length = p := copyOut_terminate buf p
    rw [copyOut,hrange,List.range_add,List.map_append,List.range_add,List.map_append,List.map_map,
      List.map_append]
    simp only [copyOut] at hfirst ⊢
    rw [hfirst]
    simp [held,Function.comp_def,Nat.add_assoc]
  rw [hsplit]
  exact toCString_append hp _

/-! ### The lines of the header -/

/-- A line that fits into the buffer and has no zero. -/
structure HeaderLine (line : List Byte) : Prop where
  ends : ∃ l, line = l ++ [newline] ∧ newline ∉ l
  zero : 0 ∉ line
  short : line.length ≤ maxBuf

def Plain (l : List Byte) : Prop := ∀ c ∈ l, c ≠ newline ∧ c ≠ 0

instance (l : List Byte) : Decidable (Plain l) := by
  unfold Plain
  infer_instance

theorem Plain.append {l t : List Byte} (hl : Plain l) (ht : Plain t) : Plain (l ++ t) :=
  List.forall_mem_append.mpr ⟨hl,ht⟩

theorem plain_decimal (n : ℕ) : Plain (decimal n) := fun _ hc =>
  have h := of_isDigit (isDigit_of_mem_decimal hc)
  ⟨h.2.2.2.2,h.2.2.2.1⟩

theorem headerLine_of_plain {l : List Byte} (hl : Plain l) (hlen : l.length ≤ 8190) :
    HeaderLine (l ++ text "\r\n") where
  ends := ⟨l ++ [13],by simp [text,newline],fun hm => by
    rcases List.mem_append.mp hm with hm | hm
    · exact (hl _ hm).1 rfl
    · simp [newline] at hm⟩
  zero hm := by
    rcases List.mem_append.mp hm with hm | hm
    · exact (hl _ hm).2 rfl
    · simp [text] at hm
  short := by
    simp [text,maxBuf]
    omega

theorem HeaderLine.piece_eq (hl : HeaderLine line) (rest : List Byte) :
    piece endsLine maxBuf (line ++ rest) = line := by
  obtain ⟨l,rfl,hnl⟩ := hl.ends
  have hends : ∀ c ∈ l, endsLine c = false := fun c hc => by
    have hne : c ≠ newline := fun he => hnl (he ▸ hc)
    simp [endsLine,hne]
  have hlen := hl.short
  rw [List.length_append,List.length_singleton] at hlen
  simpa using piece_line hends (by simp [endsLine] : endsLine newline = true) (by omega) rest

theorem HeaderLine.read (hl : HeaderLine line) (buf : Region) (h : Delivers rp (line ++ rest)) :
    ∃ rp', readlineOrExit rp buf maxBuf = some ⟨line.length,held buf line,rp'⟩ ∧
      Delivers rp' rest := by
  obtain ⟨l,hline,-⟩ := hl.ends
  obtain ⟨rp',hr,hd⟩ := readlineOrExit_spec (by decide : maxBuf < 2^31) buf h (by simp [hline])
  rw [hl.piece_eq] at hr hd
  exact ⟨rp',hr,by simpa using hd⟩

theorem HeaderLine.strcmp_iff (hl : HeaderLine line) (buf : Region) :
    strcmp (held buf line) crlf = true ↔ line = crlf := by
  obtain ⟨l,hline,-⟩ := hl.ends
  have h := strcmp_held (by decide : 0 < maxBuf) buf (by simp [hline] : line ++ [] ≠ [])
  rwa [hl.piece_eq] at h

theorem HeaderLine.pos (hl : HeaderLine line) : 0 < (line.length : ℤ) := by
  obtain ⟨l,hline,-⟩ := hl.ends
  simp [hline]

/-- The loop has just read the line, and the rest of the stream is behind it. -/
structure Standing (h : Header) (line rest : List Byte) : Prop where
  buf : ∃ b, h.buf = held b line
  n : h.n = line.length
  rio : Delivers h.rio rest

/-- An iteration of the loop behind a line that is not empty. -/
theorem headerLoop_step {h : Header} {next : List Byte} (hs : Standing h line (next ++ rest))
    (hl : HeaderLine line) (hne : line ≠ crlf) (hnext : HeaderLine next) (iterations : ℕ) :
    ∃ h', headerLoop (iterations+1) h = headerLoop iterations h' ∧ Standing h' next rest ∧
      h'.length = (scanLine next h).length ∧ h'.csum = (scanLine next h).csum := by
  obtain ⟨b,hb⟩ := hs.buf
  have hblank : strcmp h.buf crlf = false := by
    rw [hb]
    exact Bool.eq_false_iff.mpr (mt (hl.strcmp_iff b).mp hne)
  have hn : 0 < h.n := hs.n ▸ hl.pos
  obtain ⟨rio,hr,hd⟩ := hnext.read h.buf hs.rio
  refine ⟨scanLine next { h with rio := rio, buf := held h.buf next, n := next.length },?_,
    ⟨⟨_,rfl⟩,rfl,hd⟩,rfl,rfl⟩
  simp [headerLoop,hblank,hn,hr,toCString_held hnext.zero hnext.short]

theorem headerLoop_stop {h : Header} (hs : Standing h crlf rest) (hl : HeaderLine crlf)
    (iterations : ℕ) : headerLoop (iterations+1) h = some h := by
  obtain ⟨b,hb⟩ := hs.buf
  have hblank : strcmp h.buf crlf = true := hb ▸ (hl.strcmp_iff b).mpr rfl
  simp [headerLoop,hblank]

theorem ne_crlf {c : Byte} {l : List Byte} (h : line = c::l) (hc : c ≠ 13) : line ≠ crlf :=
  fun he => hc (List.cons.inj (h.symm.trans he)).1

/-! ### The body -/

theorem toInt32_add (a b : ℤ) : toInt32 (toInt32 a+b) = toInt32 (a+b) := Int.bmod_add_bmod

theorem addBytes_append (csum : BitVec 32) (l t : List Byte) :
    addBytes csum (l ++ t) = addBytes (addBytes csum l) t :=
  List.foldl_append

/-- All bytes of the stream are received, whatever they are. -/
theorem bodyLoop_spec (h : Delivers rp stream) (buf : Region) (received : ℤ) (csum : BitVec 32)
    {iterations : ℕ} (hi : stream.length < iterations) :
    bodyLoop iterations rp buf (toInt32 received) csum =
      some (toInt32 (received+stream.length),addBytes csum stream) := by
  have hpos : 0 < maxBuf := by decide
  induction stream using induction_on_pieces endsLine hpos
    generalizing rp buf received csum iterations with
  | nil =>
    obtain ⟨iterations,rfl⟩ : ∃ k, iterations = k+1 := ⟨iterations-1,by omega⟩
    obtain ⟨rp',hr,-⟩ := readlineOrExit_eof hpos buf h
    simp [bodyLoop,hr,copyOut,addBytes,toInt32_add]
  | step stream hs ih =>
    obtain ⟨iterations,rfl⟩ : ∃ k, iterations = k+1 := ⟨iterations-1,by omega⟩
    obtain ⟨rp',hr,hd⟩ := readlineOrExit_spec (by decide : maxBuf < 2^31) buf h hs
    have hplen := List.length_pos_iff.mpr (piece_ne_nil endsLine hpos hs)
    have hsplit := piece_append_drop endsLine maxBuf stream
    have hlen := congrArg List.length hsplit
    rw [List.length_append] at hlen
    have hcopy : copyOut (held buf (piece endsLine maxBuf stream)) 0
        (piece endsLine maxBuf stream).length = piece endsLine maxBuf stream :=
      copyOut_terminate buf _
    have hrest := ih hd (held buf (piece endsLine maxBuf stream))
      (received+(piece endsLine maxBuf stream).length)
      (addBytes csum (piece endsLine maxBuf stream))
      (by omega : (stream.drop (piece endsLine maxBuf stream).length).length < iterations)
    simp only [bodyLoop,hr,Option.bind_eq_bind,Option.bind_some,Int.toNat_natCast,hcopy,toInt32_add]
    rw [if_pos (by omega),hrest,← addBytes_append,hsplit,add_assoc]
    norm_cast
    rw [hlen]

/-! ### The header of a file -/

section Lines

variable (data : FileContents)

def statusLine : List Byte := text "HTTP/1.0 200 OK" ++ text "\r\n"
def serverLine : List Byte := text "Server: OS Web Server" ++ text "\r\n"
def typeLine : List Byte :=
  text "Content-Type: " ++ requestGetFileType data.fileName ++ text "\r\n"
def lengthLine : List Byte :=
  text "Content-Length: " ++ decimal data.fileBuf.length ++ text "\r\n"
def csumLine : List Byte :=
  text "Content-Csum: " ++ decimal (addBytes 0 data.fileBuf).toNat ++ text "\r\n"

theorem responseHeader_eq : responseHeader data =
    statusLine ++ (serverLine ++ (typeLine data ++ (lengthLine data ++ (csumLine data ++ crlf)))) := by
  have hint : formatInt data.fileBuf.length = decimal data.fileBuf.length := if_neg (by omega)
  simp [responseHeader,statusLine,serverLine,typeLine,lengthLine,csumLine,formatUnsigned,hint,text,
    crlf]

theorem fileType_plain (filename : CacheModel.FileName) :
    Plain (requestGetFileType filename) ∧ (requestGetFileType filename).length ≤ 10 := by
  unfold requestGetFileType
  split
  · simp [Plain,text,newline]
  · split
    · simp [Plain,text,newline]
    · split <;> simp [Plain,text,newline]

theorem statusLine_header : HeaderLine statusLine :=
  headerLine_of_plain (by simp [Plain,text,newline]) (by simp [text])

theorem serverLine_header : HeaderLine serverLine :=
  headerLine_of_plain (by simp [Plain,text,newline]) (by simp [text])

theorem crlf_header : HeaderLine crlf := headerLine_of_plain (l := []) (by decide) (by decide)

theorem typeLine_header : HeaderLine (typeLine data) := by
  obtain ⟨hplain,hlen⟩ := fileType_plain data.fileName
  refine headerLine_of_plain (Plain.append (by simp [Plain,text,newline]) hplain) ?_
  have htag : (text "Content-Type: ").length = 14 := by simp [text]
  rw [List.length_append,htag]
  omega

theorem tag_header {l : List Byte} (hl : Plain l) (hlen : l.length ≤ 100) {n : ℕ} (hn : n < 2^32) :
    HeaderLine (l ++ decimal n ++ text "\r\n") := by
  refine headerLine_of_plain (hl.append (plain_decimal n)) ?_
  have hdec := length_decimal_le (k := 10) (n := n) (by decide) (by omega)
  rw [List.length_append]
  omega

theorem csumLine_header : HeaderLine (csumLine data) :=
  tag_header (by simp [Plain,text,newline]) (by simp [text]) (addBytes 0 data.fileBuf).isLt

variable (hsize : data.fileBuf.length < 2^31)

include hsize in
theorem lengthLine_header : HeaderLine (lengthLine data) :=
  tag_header (by simp [Plain,text,newline]) (by simp [text]) (by omega)

/-! ### What the lines say -/

theorem scan_crlf (h : Header) : scanLine crlf h = h := rfl

include hsize in
theorem scan_length (h : Header) :
    scanLine (lengthLine data) h = { h with length := data.fileBuf.length } := by
  have htag : sscanf lengthFormat (lengthLine data) = [(data.fileBuf.length : ℤ)] :=
    sscanf_tag (text "Content-Length:") data.fileBuf.length (c := 13) (by decide) [10]
  have hother : sscanf csumFormat (lengthLine data) = [] := rfl
  have hint : toInt32 (data.fileBuf.length : ℤ) = data.fileBuf.length :=
    Int.bmod_eq_of_le (by omega) (by omega)
  simp [scanLine,htag,hother,hint]

theorem scan_csum (h : Header) :
    scanLine (csumLine data) h = { h with csum := addBytes 0 data.fileBuf } := by
  have htag : sscanf csumFormat (csumLine data) = [((addBytes 0 data.fileBuf).toNat : ℤ)] :=
    sscanf_tag (text "Content-Csum:") (addBytes 0 data.fileBuf).toNat (c := 13) (by decide) [10]
  have hother : sscanf lengthFormat (csumLine data) = [] := rfl
  simp [scanLine,htag,hother]

/-- The loop reads the header of a file, and leaves its body. -/
theorem headerLoop_response {h : Header} {body : List Byte} (hl : data.fileBuf.length < 2^31)
    (hs : Standing h statusLine
      (serverLine ++ (typeLine data ++ (lengthLine data ++ (csumLine data ++ (crlf ++ body))))))
    (iterations : ℕ) : ∃ h', headerLoop (iterations+6) h = some h' ∧ Delivers h'.rio body ∧
      h'.length = data.fileBuf.length ∧ h'.csum = addBytes 0 data.fileBuf := by
  obtain ⟨h₁,hr₁,hs₁,-,-⟩ := headerLoop_step hs statusLine_header (by decide) serverLine_header
    (iterations+5)
  obtain ⟨h₂,hr₂,hs₂,-,-⟩ := headerLoop_step hs₁ serverLine_header (by decide) (typeLine_header data)
    (iterations+4)
  obtain ⟨h₃,hr₃,hs₃,hlength₃,-⟩ := headerLoop_step hs₂ (typeLine_header data)
    (ne_crlf rfl (by decide)) (lengthLine_header data hl) (iterations+3)
  obtain ⟨h₄,hr₄,hs₄,hlength₄,hcsum₄⟩ := headerLoop_step hs₃ (lengthLine_header data hl)
    (ne_crlf rfl (by decide)) (csumLine_header data) (iterations+2)
  obtain ⟨h₅,hr₅,hs₅,hlength₅,hcsum₅⟩ := headerLoop_step hs₄ (csumLine_header data)
    (ne_crlf rfl (by decide)) crlf_header (iterations+1)
  refine ⟨h₅,?_,hs₅.rio,?_,?_⟩
  · rw [hr₁,hr₂,hr₃,hr₄,hr₅]
    exact headerLoop_stop hs₅ crlf_header iterations
  · rw [hlength₅,scan_crlf,hlength₄,scan_csum,hlength₃,scan_length data hl]
  · rw [hcsum₅,scan_crlf,hcsum₄,scan_csum]

theorem requestSendfile_spec {fd : List WriteResult} (h : .failed ∉ fd)
    (hl : data.fileBuf.length < 2^31) :
    requestSendfile data fd = some (responseHeader data ++ data.fileBuf) := by
  have hzero : ∀ c ∈ responseHeader data, (decide (c ≠ 0)) = true := by
    have hlines : 0 ∉ responseHeader data := by
      rw [responseHeader_eq]
      simp only [List.mem_append,not_or]
      exact ⟨statusLine_header.zero,serverLine_header.zero,(typeLine_header data).zero,
        (lengthLine_header data hl).zero,(csumLine_header data).zero,crlf_header.zero⟩
    intro c hc
    exact decide_eq_true fun he => hlines (he ▸ hc)
  obtain ⟨fd',hr,hfd'⟩ := rioWrite_spec h (responseHeader data)
  obtain ⟨fd'',hr',-⟩ := rioWrite_spec hfd' data.fileBuf
  rw [requestSendfile,List.takeWhile_eq_self_iff.mpr hzero,hr]
  by_cases hbody : 0 < data.fileBuf.length
  · simp [hbody,hr']
  · have hnil : data.fileBuf = [] := List.length_eq_zero_iff.mp (by omega)
    simp [hnil]

/-- The client extracts the length and the checksum of the file, counts as many bytes, and gets the
same sum, however `write` and `read` divide the stream; so its assertions hold. -/
theorem response_round_trip (data : FileContents) (hsize : data.fileBuf.length < 2^31)
    {writes : List WriteResult} (hwrites : .failed ∉ writes) :
    ∃ sent, requestSendfile data writes = some sent ∧
      ∀ (reads : List ReadResult) (rioBuf buf : Region), .failed ∉ reads →
        reads.flatMap ReadResult.bytes = sent →
        ∃ iterations printed, clientPrint iterations reads rioBuf buf = some printed ∧
          printed.length = data.fileBuf.length ∧ printed.csum = addBytes 0 data.fileBuf ∧
          printed.lengthReceived = data.fileBuf.length ∧
          printed.csumReceived = addBytes 0 data.fileBuf ∧
          printed.Asserted (addBytes 0 data.fileBuf) data.fileBuf.length := by
  refine ⟨_,requestSendfile_spec data hwrites hsize,fun reads rioBuf buf hreads hsent => ?_⟩
  have hd := delivers_init hreads rioBuf
  rw [hsent,responseHeader_eq] at hd
  simp only [List.append_assoc] at hd
  obtain ⟨rp,hr,hd₁⟩ := statusLine_header.read buf hd
  obtain ⟨h,hh,hd₂,hlength,hcsum⟩ := headerLoop_response data hsize
    (h := ⟨rp,held buf statusLine,statusLine.length,0,0⟩) ⟨⟨buf,rfl⟩,rfl,hd₁⟩ data.fileBuf.length
  have hbody := bodyLoop_spec hd₂ h.buf 0 0
    (by omega : data.fileBuf.length < data.fileBuf.length+6)
  have hint : toInt32 (data.fileBuf.length : ℤ) = data.fileBuf.length :=
    Int.bmod_eq_of_le (by omega) (by omega)
  have hzero : toInt32 0 = 0 := by decide
  rw [zero_add,hint,hzero] at hbody
  refine ⟨data.fileBuf.length+6,⟨h.length,h.csum,data.fileBuf.length,addBytes 0 data.fileBuf⟩,?_,
    hlength,hcsum,rfl,rfl,?_⟩
  · simp only [clientPrint,hr,hh,hbody,Option.bind_eq_bind,Option.bind_some]
  · exact ⟨hcsum.symm,hlength.symm,hlength,hcsum⟩

end Lines

/-- A newline, a zero and a letter -/
def threeBytes : FileContents := ⟨⟨text "./a.html",by decide⟩,[10,0,97]⟩

def threeReads : List ReadResult :=
  [.data ⟨text "HTTP/1.0 200 OK\r\nServer: OS",by decide⟩,.interrupted,
    .data ⟨text " Web Server\r\nContent-Type: text/html\r\nContent-Length: 3\r",by decide⟩,
    .data ⟨text "\nContent-Csum: 107\r\n\r\n\n",by decide⟩,.interrupted,.data ⟨[0,97],by decide⟩]

theorem threeBytes_round_trip :
    ∃ iterations printed, clientPrint iterations threeReads (fun _ => 0) (fun _ => 0) = some printed ∧
      printed.length = 3 ∧ printed.csum = 107 ∧ printed.Asserted 107 3 := by
  obtain ⟨sent,hsent,hread⟩ := response_round_trip threeBytes (by decide)
    (by simp : .failed ∉ [WriteResult.wrote 2,.interrupted])
  have hsame : some (threeReads.flatMap ReadResult.bytes) = some sent := by
    rw [← hsent]
    decide
  obtain ⟨iterations,printed,hp,hlength,hcsum,-,-,hasserted⟩ :=
    hread threeReads (fun _ => 0) (fun _ => 0) (by simp [threeReads]) (Option.some.inj hsame)
  exact ⟨iterations,printed,hp,hlength,hcsum,hasserted⟩

end ResponseRoundTrip
end OsLabs

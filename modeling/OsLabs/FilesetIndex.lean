import OsLabs.WebExchange

/-!
# The index of a set of files

The model of `main` of `webserver/fileset.c`, which makes files of random bytes and writes an index of
their names, checksums and lengths, and of `init_fileset` in `webserver/client.c`, which reads it. The
bytes of the files are given by a list; the old files of the directory are not modelled.
-/

namespace OsLabs
namespace FilesetIndex

open RioModel RequestHeaders DecimalText ResponseRoundTrip ErrorPages WebExchange
open Bytes hiding CString
open ResponseModel hiding scanLine
open FsModel (toInt32)
open RequestModel (CString scanWord isspace maxLine)

/-! ### `main` of `fileset.c` -/

/-- The bytes of a file; `rand_pareto` gives at least its first argument. -/
abbrev Contents := {l : List Byte // 4096 ≤ l.length ∧ l.length < 2^31}

/-- `"%05d"` -/
def pad (nr : ℕ) : List Byte := List.replicate (5-(decimal nr).length) 48 ++ decimal nr

theorem isDigit_of_mem_pad {nr : ℕ} {c : Byte} (hc : c ∈ pad nr) : isDigit c = true := by
  rcases List.mem_append.mp hc with hc | hc
  · rw [List.eq_of_mem_replicate hc]
    decide
  · exact isDigit_of_mem_decimal hc

theorem zero_notMem_fileName (dir : CString) (nr : ℕ) : 0 ∉ dir.1 ++ 47::pad nr := by
  intro hm
  rcases List.mem_append.mp hm with hm | hm
  · exact dir.2 hm
  · rcases List.mem_cons.mp hm with he | hm
    · cases he
    · exact (of_isDigit (isDigit_of_mem_pad hm)).2.2.2.1 rfl

/-- The directory, and `"/%05d"` -/
def fileName (dir : CString) (nr : ℕ) : CString := ⟨dir.1 ++ 47::pad nr,zero_notMem_fileName dir nr⟩

/-- `"%s %u %d\n"` -/
def indexLine (filename : CString) (contents : Contents) : List Byte :=
  filename.1 ++ text " " ++ formatUnsigned (addBytes 0 contents.1) ++ text " " ++
    formatInt contents.1.length ++ text "\n"

/-- The variables of the loop, and the files that it has written. -/
structure Made where
  nrFiles : ℕ
  currentFilesetSz : ℤ
  idxBuffer : List Byte
  files : List (CString × Contents)

/-- The loop; `none` when the assertion fails. -/
def makeFiles (dir : CString) (totalFilesetSz : ℤ) : List Contents → Made → Option Made
  | draws, m =>
    if m.currentFilesetSz < totalFilesetSz then
      match draws with
      | [] => none
      | contents::draws =>
        let filename := fileName dir m.nrFiles
        let idxBuf := indexLine filename contents
        if m.idxBuffer.length+idxBuf.length < 4096*256-1 then
          makeFiles dir totalFilesetSz draws
            { nrFiles := m.nrFiles+1
              currentFilesetSz := toInt32 (m.currentFilesetSz+contents.1.length)
              idxBuffer := m.idxBuffer ++ idxBuf
              files := m.files ++ [(filename,contents)] }
        else none
    else some m

/-- The program with its options. -/
def makeFileset (dir : CString) (defaultFileSz defaultNrFiles : ℤ) (draws : List Contents) :
    Option Made :=
  if defaultFileSz ≤ 1 ∨ defaultNrFiles < 1 ∨ 99999 < defaultNrFiles ∨ 1000 < dir.1.length then none
  else makeFiles dir (toInt32 (defaultFileSz*4096*defaultNrFiles)) draws ⟨0,0,[],[]⟩

/-- The index as it is written. -/
def writeIndex (m : Made) (fd : List WriteResult) : Option (List Byte) :=
  writeAll [formatInt m.nrFiles ++ text "\n",m.idxBuffer] fd

/-! ### `init_fileset` -/

structure FileInfo where
  name : CString
  csum : BitVec 32
  len : ℤ

/-- The fields of `struct client` that are filled in -/
structure Client where
  nrFiles : ℤ
  fileset : List FileInfo

def atoi (buf : CString) : ℤ :=
  match scanNumber buf.1 with
  | none => 0
  | some (v,_) => toInt32 v

/-- `sscanf` with `"%s %u %d"`; what is not assigned stays. -/
def scanInfo (buf : CString) (fi : FileInfo) : FileInfo :=
  match scanWord buf with
  | none => fi
  | some (name,rest) =>
    match sscanf [.space,.number,.space,.number] rest.1 with
    | [] => { fi with name := name }
    | [csum] => { fi with name := name, csum := BitVec.ofInt 32 csum }
    | csum::len::_ => ⟨name,BitVec.ofInt 32 csum,toInt32 len⟩

/-- The loop of `init_fileset`, if it ends after so many calls of `Rio_readlineb`. The entries of
the array are not initialised. A name that is longer than its line goes on behind its memory. -/
def initFileset (blank : ℕ → FileInfo) : ℕ → Rio → Region → Client → Option Client
  | 0, _, _, _ => none
  | calls+1, rio, buf, cl => do
    let line ← readlineOrExit rio buf maxLine
    let i := cl.fileset.length
    if line.ret = 0 then
      if 0 < cl.nrFiles ∧ i = cl.nrFiles then some cl else none
    else do
      let n := if line.usrbuf (line.ret.toNat-1) = newline then line.ret-1 else line.ret
      let str ← toCString (copyOut line.usrbuf 0 (maxLine+1))
      if cl.nrFiles = 0 then
        if 0 < atoi str then initFileset blank calls line.rp line.usrbuf { cl with nrFiles := atoi str }
        else none
      else if i < cl.nrFiles ∧ ∀ w ∈ scanWord str, w.1.1.length ≤ n then
        initFileset blank calls line.rp line.usrbuf
          { cl with fileset := cl.fileset ++ [scanInfo str (blank i)] }
      else none

/-! ### What is made -/

/-- What the index of so many files holds. -/
structure Makes (dir : CString) (m : Made) : Prop where
  names : m.files.map Prod.fst = (List.range m.nrFiles).map (fileName dir)
  index : m.idxBuffer = m.files.flatMap fun f => indexLine f.1 f.2
  short : m.idxBuffer.length < 4096*256-1

variable {dir filename : CString} {contents : Contents} {draws : List Contents} {m m' : Made}
  {totalFilesetSz defaultFileSz defaultNrFiles : ℤ}

theorem makeFiles_spec (h : Makes dir m) (hm : makeFiles dir totalFilesetSz draws m = some m') :
    Makes dir m' := by
  induction draws generalizing m with
  | nil =>
    unfold makeFiles at hm
    split at hm
    · cases hm
    · exact Option.some.inj hm ▸ h
  | cons contents draws ih =>
    unfold makeFiles at hm
    split at hm
    · obtain ⟨hshort,hm⟩ := Option.ite_none_right_eq_some.mp hm
      refine ih ⟨?_,?_,?_⟩ hm
      · simp [h.names,List.range_succ]
      · simp [h.index]
      · simpa using hshort
    · exact Option.some.inj hm ▸ h

theorem makeFileset_spec (hm : makeFileset dir defaultFileSz defaultNrFiles draws = some m) :
    Makes dir m ∧ dir.1.length ≤ 1000 := by
  obtain ⟨hoptions,hm⟩ := Option.ite_none_left_eq_some.mp hm
  refine ⟨makeFiles_spec ⟨rfl,rfl,by decide⟩ hm,?_⟩
  omega

theorem Makes.length_files (h : Makes dir m) : m.files.length = m.nrFiles := by
  simpa using congrArg List.length h.names

theorem indexLine_ne_nil : 0 < (indexLine filename contents).length := by
  simp [indexLine,text]

/-- Each file takes some of the array. -/
theorem Makes.nrFiles_lt (h : Makes dir m) : m.nrFiles < 10^7 := by
  have hle : ∀ files : List (CString × Contents),
      files.length ≤ (files.flatMap fun f => indexLine f.1 f.2).length := by
    intro files
    induction files with
    | nil => simp
    | cons f files ih =>
      have hpos : 0 < (indexLine f.1 f.2).length := indexLine_ne_nil
      rw [List.flatMap_cons,List.length_append,List.length_cons]
      omega
  have hfiles := hle m.files
  have hshort := h.short
  rw [← h.index,h.length_files] at hfiles
  omega

/-! ### The lines of the index -/

/-- A file with a name that `sscanf` takes whole. -/
structure Listed (f : CString × Contents) : Prop where
  word : Word f.1.1
  short : f.1.1.length ≤ 2000

theorem length_pad_le {nr : ℕ} (h : nr < 10^7) : (pad nr).length ≤ 12 := by
  have hd := length_decimal_le (k := 7) (by decide) h
  simp only [pad,List.length_append,List.length_replicate]
  omega

theorem word_fileName (hdir : ∀ c ∈ dir.1, isspace c = false) (nr : ℕ) : Word (fileName dir nr).1 := by
  refine ⟨by simp [fileName],fun c hc => ?_⟩
  rcases List.mem_append.mp hc with hc | hc
  · exact hdir c hc
  · rcases List.mem_cons.mp hc with rfl | hc
    · decide
    · exact (of_isDigit (isDigit_of_mem_pad hc)).1

theorem Makes.exists_nr (h : Makes dir m) {f : CString × Contents} (hf : f ∈ m.files) :
    ∃ nr, f.1 = fileName dir nr ∧ (pad nr).length ≤ 12 := by
  have hname := List.mem_map_of_mem (f := Prod.fst) hf
  rw [h.names] at hname
  obtain ⟨nr,hnr,he⟩ := List.mem_map.mp hname
  exact ⟨nr,he.symm,length_pad_le ((List.mem_range.mp hnr).trans h.nrFiles_lt)⟩

theorem Makes.listed (h : Makes dir m) (hlen : dir.1.length ≤ 1000)
    (hdir : ∀ c ∈ dir.1, isspace c = false) : ∀ f ∈ m.files, Listed f := by
  intro f hf
  obtain ⟨nr,he,hpad⟩ := h.exists_nr hf
  refine ⟨he ▸ word_fileName hdir nr,?_⟩
  rw [he,fileName,List.length_append,List.length_cons]
  omega

theorem headerLine_newline {l : List Byte} (hl : Plain l) (hlen : l.length ≤ 8191) :
    HeaderLine (l ++ text "\n") where
  ends := ⟨l,rfl,fun hm => (hl _ hm).1 rfl⟩
  zero hm := by
    rcases List.mem_append.mp hm with hm | hm
    · exact (hl _ hm).2 rfl
    · revert hm
      decide
  short := by
    have hnewline : (text "\n").length = 1 := by decide
    rw [List.length_append,hnewline]
    simp only [maxBuf]
    omega

/-- The line without its end -/
def indexFields (filename : CString) (contents : Contents) : List Byte :=
  filename.1 ++ 32::(decimal (addBytes 0 contents.1).toNat ++ 32::decimal contents.1.length)

theorem indexLine_eq (filename : CString) (contents : Contents) :
    indexLine filename contents = indexFields filename contents ++ text "\n" := by
  have hint : formatInt contents.1.length = decimal contents.1.length := if_neg (by omega)
  have hblank : text " " = [32] := by decide
  simp [indexLine,indexFields,formatUnsigned,hint,hblank]

theorem indexLine_header {f : CString × Contents} (hf : Listed f) : HeaderLine (indexLine f.1 f.2) := by
  have hblank : Plain [32] := by decide
  have hcsum := length_decimal_le (k := 10) (by decide)
    ((addBytes 0 f.2.1).isLt.trans (by decide) : _ < 10^10)
  have hlen := length_decimal_le (k := 10) (by decide) (f.2.2.2.trans (by decide) : _ < 10^10)
  have hname := hf.short
  rw [indexLine_eq]
  refine headerLine_newline (hf.word.plain.append (hblank.append ((plain_decimal _).append
    (hblank.append (plain_decimal _))))) ?_
  simp only [indexFields,List.length_append,List.length_cons]
  omega

/-! ### What `sscanf` gets -/

/-- The file as the client knows it -/
def info (f : CString × Contents) : FileInfo := ⟨f.1,addBytes 0 f.2.1,f.2.1.length⟩

theorem sscanf_numbers (a b : ℕ) {c : Byte} (hc : isDigit c = false) (s : List Byte) :
    sscanf [.space,.number,.space,.number] (32::(decimal a ++ 32::(decimal b ++ c::s))) =
      [(a : ℤ),(b : ℤ)] := by
  have hblank : isspace 32#8 = true := by decide
  have hdigit : isDigit 32#8 = false := by decide
  simp [sscanf,hblank,dropWhile_isspace_decimal,scanNumber_decimal a hdigit,scanNumber_decimal b hc]

theorem scanWord_indexLine {f : CString × Contents} (hw : Word f.1.1) (str : CString)
    (hstr : str.1 = indexLine f.1 f.2) : ∃ rest, scanWord str = some (f.1,rest) ∧
      rest.1 = 32::(decimal (addBytes 0 f.2.1).toNat ++ 32::(decimal f.2.1.length ++ [10])) := by
  have hline : str.1 = [] ++ (f.1.1 ++
      32::(decimal (addBytes 0 f.2.1).toNat ++ 32::(decimal f.2.1.length ++ [10]))) := by
    have hnewline : text "\n" = [10] := by decide
    rw [hstr,indexLine_eq,indexFields,hnewline]
    simp
  obtain ⟨w,r,hscan,hword,hr⟩ := scanWord_append hline (by simp) hw (by decide)
  obtain rfl : w = f.1 := Subtype.ext hword
  exact ⟨r,hscan,hr⟩

theorem scanInfo_indexLine {f : CString × Contents} (hw : Word f.1.1) (str : CString)
    (hstr : str.1 = indexLine f.1 f.2) (fi : FileInfo) : scanInfo str fi = info f := by
  obtain ⟨rest,hscan,hrest⟩ := scanWord_indexLine hw str hstr
  have hsize := f.2.2.2
  have hint : toInt32 (f.2.1.length : ℤ) = f.2.1.length :=
    Int.bmod_eq_of_le (by omega) (by omega)
  simp only [scanInfo,hscan,hrest,sscanf_numbers _ _ (by decide : isDigit 10 = false) [],hint]
  simp [info]

/-! ### Reading the index -/

/-- The calls behind the first line -/
theorem initFileset_lines {files : List (CString × Contents)} (hfiles : ∀ f ∈ files, Listed f)
    (blank : ℕ → FileInfo) {nr : ℤ} {rio : Rio} {done : List FileInfo}
    (hnr : nr = done.length+files.length) (hpos : 0 < nr)
    (hd : Delivers rio (files.flatMap fun f => indexLine f.1 f.2)) (buf : Region) :
    initFileset blank (files.length+1) rio buf ⟨nr,done⟩ = some ⟨nr,done ++ files.map info⟩ := by
  induction files generalizing rio done buf with
  | nil =>
    obtain ⟨rio',hr,-⟩ := readlineOrExit_eof (by decide : 0 < maxLine) buf hd
    have hlast : (done.length : ℤ) = nr := by simpa using hnr.symm
    simp [initFileset,hr,hpos,hlast]
  | cons f files ih =>
    obtain ⟨hf,hfiles⟩ := List.forall_mem_cons.mp hfiles
    rw [List.length_cons] at hnr
    have hheader := indexLine_header hf
    obtain ⟨rio',hr,hd'⟩ : ∃ rio', readlineOrExit rio buf maxLine = some ⟨_,_,rio'⟩ ∧ _ :=
      hheader.read buf hd
    have hstr : toCString (copyOut (held buf (indexLine f.1 f.2)) 0 (maxLine+1)) =
        some ⟨indexLine f.1 f.2,hheader.zero⟩ := toCString_held hheader.zero hheader.short buf
    obtain ⟨rest,hscan,-⟩ := scanWord_indexLine hf.word ⟨indexLine f.1 f.2,hheader.zero⟩ rfl
    have hinfo := scanInfo_indexLine hf.word ⟨indexLine f.1 f.2,hheader.zero⟩ rfl
    have hret : ((indexLine f.1 f.2).length : ℤ) ≠ 0 := hheader.pos.ne'
    have hi : (done.length : ℤ) < nr := by omega
    have hname : (f.1.1.length : ℤ) ≤ (indexLine f.1 f.2).length-1 := by
      rw [indexLine_eq,indexFields]
      simp [text]
      omega
    have hrest : initFileset blank (files.length+1) rio' (held buf (indexLine f.1 f.2))
        ⟨nr,done ++ [info f]⟩ = some ⟨nr,done ++ [info f] ++ files.map info⟩ :=
      ih hfiles (by simp; omega) hd' _
    rw [initFileset,hr]
    simp only [Option.bind_eq_bind,Option.bind_some,if_neg hret,hstr,if_neg hpos.ne',hinfo]
    refine (if_pos ⟨hi,fun w hw => ?_⟩).trans (hrest.trans (by simp))
    rw [hscan] at hw
    obtain rfl := Option.some.inj hw
    change (f.1.1.length : ℤ) ≤ _
    split <;> omega

theorem scanInfo_word {fi : FileInfo} (h : Word fi.name.1) (str : CString) :
    Word (scanInfo str fi).name.1 := by
  unfold scanInfo
  cases hscan : scanWord str with
  | none => exact h
  | some r =>
    obtain ⟨name,rest⟩ := r
    have hw := scanWord_word hscan
    dsimp only
    split <;> exact hw

theorem initFileset_words {blank : ℕ → FileInfo} (hblank : ∀ i, Word (blank i).name.1) {calls : ℕ}
    {rio : Rio} {buf : Region} {cl cl' : Client} (hcl : ∀ fi ∈ cl.fileset, Word fi.name.1)
    (h : initFileset blank calls rio buf cl = some cl') :
    0 < cl'.nrFiles ∧ ∀ fi ∈ cl'.fileset, Word fi.name.1 := by
  induction calls generalizing rio buf cl with
  | zero => simp [initFileset] at h
  | succ calls ih =>
    obtain ⟨line,-,h⟩ := Option.bind_eq_some_iff.mp h
    dsimp only at h
    split at h
    · obtain ⟨⟨hpos,-⟩,h⟩ := Option.ite_none_right_eq_some.mp h
      obtain rfl := Option.some.inj h
      exact ⟨hpos,hcl⟩
    · obtain ⟨str,-,h⟩ := Option.bind_eq_some_iff.mp h
      split at h
      · obtain ⟨-,h⟩ := Option.ite_none_right_eq_some.mp h
        refine ih ?_ h
        exact hcl
      · obtain ⟨-,h⟩ := Option.ite_none_right_eq_some.mp h
        refine ih (fun fi hfi => ?_) h
        rcases List.mem_append.mp hfi with hfi | hfi
        · exact hcl fi hfi
        · rw [List.mem_singleton.mp hfi]
          exact scanInfo_word (hblank _) str

theorem countLine_header {nr : ℕ} (h : nr < 10^7) : HeaderLine (decimal nr ++ text "\n") := by
  have hlen := length_decimal_le (k := 7) (by decide) h
  exact headerLine_newline (plain_decimal nr) (by omega)

theorem atoi_countLine {nr : ℕ} (h : nr < 10^7) (str : CString) (hstr : str.1 = decimal nr ++ text "\n") :
    atoi str = nr := by
  have hint : toInt32 (nr : ℤ) = nr := Int.bmod_eq_of_le (by omega) (by omega)
  have hscan : scanNumber str.1 = some ((nr : ℤ),[10]) := by
    rw [hstr]
    exact scanNumber_decimal nr (by decide) []
  simp only [atoi,hscan,hint]

theorem initFileset_spec (h : Makes dir m) (hfiles : m.files ≠ []) (hlisted : ∀ f ∈ m.files, Listed f)
    (blank : ℕ → FileInfo) {rio : Rio} (hd : Delivers rio (decimal m.nrFiles ++ text "\n" ++ m.idxBuffer))
    (buf : Region) : initFileset blank (m.files.length+2) rio buf ⟨0,[]⟩ =
      some ⟨m.nrFiles,m.files.map info⟩ := by
  have hpos := List.length_pos_iff.mpr hfiles
  have hcount := h.length_files
  have hheader := countLine_header h.nrFiles_lt
  obtain ⟨rio',hr,hd'⟩ : ∃ rio', readlineOrExit rio buf maxLine = some ⟨_,_,rio'⟩ ∧ _ :=
    hheader.read buf hd
  have hstr : toCString (copyOut (held buf (decimal m.nrFiles ++ text "\n")) 0 (maxLine+1)) =
      some ⟨_,hheader.zero⟩ := toCString_held hheader.zero hheader.short buf
  have hatoi := atoi_countLine h.nrFiles_lt ⟨_,hheader.zero⟩ rfl
  have hrest : initFileset blank (m.files.length+1) rio' (held buf (decimal m.nrFiles ++ text "\n"))
      ⟨m.nrFiles,[]⟩ = some ⟨m.nrFiles,[] ++ m.files.map info⟩ :=
    initFileset_lines hlisted blank (by simp [hcount]) (by omega) (h.index ▸ hd') _
  rw [initFileset,hr]
  simp only [Option.bind_eq_bind,Option.bind_some,if_neg hheader.pos.ne',hstr,hatoi]
  exact (if_pos trivial).trans ((if_pos (by omega)).trans hrest)

theorem delivers_writeIndex {reads : List ReadResult} (hreads : .failed ∉ reads)
    (hidx : reads.flatMap ReadResult.bytes = [formatInt m.nrFiles ++ text "\n",m.idxBuffer].flatten)
    (rioBuf : Region) :
    Delivers (rioInit reads rioBuf) (decimal m.nrFiles ++ text "\n" ++ m.idxBuffer) := by
  have hint : formatInt m.nrFiles = decimal m.nrFiles := if_neg (by omega)
  have hd := delivers_init hreads rioBuf
  rw [hidx,hint] at hd
  simpa using hd

/-- The client gets the names, the checksums and the lengths of exactly the files that were made, however
the index is written and read and whatever its memory held, if and only if there are some and their
directory has no white space in its name. -/
theorem index_round_trip (hm : makeFileset dir defaultFileSz defaultNrFiles draws = some m)
    {writes : List WriteResult} (hwrites : .failed ∉ writes) :
    ∃ idx, writeIndex m writes = some idx ∧ ∀ reads : List ReadResult, .failed ∉ reads →
      reads.flatMap ReadResult.bytes = idx →
      ((∀ rioBuf buf blank, ∃ calls, initFileset blank calls (rioInit reads rioBuf) buf ⟨0,[]⟩ =
        some ⟨m.nrFiles,m.files.map info⟩) ↔ m.files ≠ [] ∧ ∀ c ∈ dir.1, isspace c = false) := by
  obtain ⟨hmakes,hlen⟩ := makeFileset_spec hm
  refine ⟨_,writeAll_spec hwrites _,fun reads hreads hidx => ⟨fun h => ?_,fun h => ?_⟩⟩
  · let letter : FileInfo := ⟨⟨[120],by decide⟩,0,0⟩
    obtain ⟨calls,hr⟩ := h (fun _ => 0) (fun _ => 0) (fun _ => letter)
    obtain ⟨hpos,hwords⟩ := initFileset_words (fun _ => (by decide : Word letter.name.1)) (by simp) hr
    have hcount := hmakes.length_files
    have hpos : (0 : ℤ) < m.nrFiles := hpos
    obtain ⟨f,files,hf⟩ := List.exists_cons_of_length_pos (by omega : 0 < m.files.length)
    refine ⟨by simp [hf],?_⟩
    obtain ⟨nr,he,-⟩ := hmakes.exists_nr (by rw [hf]; exact List.mem_cons_self : f ∈ m.files)
    have hword := hwords (info f) (by simp [hf])
    intro c hc
    refine hword.2 c ?_
    simp [info,he,fileName,hc]
  · intro rioBuf buf blank
    exact ⟨_,initFileset_spec hmakes h.1 (hmakes.listed hlen h.2) blank
      (delivers_writeIndex hreads hidx rioBuf) buf⟩

/-- A file of two blocks is all that is made for the least options. -/
theorem makeFileset_one (hdir : ∀ c ∈ dir.1, isspace c = false) (hlen : dir.1.length ≤ 1000)
    (hsize : contents.1.length = 8192) : ∃ m, makeFileset dir 2 1 [contents] = some m ∧ m.nrFiles = 1 ∧
      m.files = [(fileName dir 0,contents)] := by
  have hpad : (pad 0).length = 5 := by decide
  have hname : (fileName dir 0).1.length ≤ 2000 := by
    rw [fileName,List.length_append,List.length_cons]
    omega
  have hline := (indexLine_header (f := (fileName dir 0,contents)) ⟨word_fileName hdir 0,hname⟩).short
  have hroom : (indexLine (fileName dir 0) contents).length < 4096*256-1 := by
    simp only [maxBuf] at hline
    omega
  have htotal : toInt32 (2*4096*1) = 8192 := by decide
  have hcurrent : toInt32 (0+(8192 : ℕ)) = 8192 := by decide
  refine ⟨⟨1,8192,indexLine (fileName dir 0) contents,[(fileName dir 0,contents)]⟩,?_,rfl,rfl⟩
  simp only [makeFileset,htotal,makeFiles,hsize,hcurrent]
  simp [hroom,hlen]

/-- Two blocks of letters in one file -/
def pages : CString := ⟨text "pages",by decide⟩
def letters : Contents := ⟨List.replicate 8192 97,by rw [List.length_replicate]; decide⟩

theorem letters_made : ∃ m, makeFileset pages 2 1 [letters] = some m ∧ m.nrFiles = 1 ∧
    m.files = [(fileName pages 0,letters)] :=
  makeFileset_one (by decide) (by decide) List.length_replicate

theorem letters_indexed : ∃ m idx, makeFileset pages 2 1 [letters] = some m ∧
    writeIndex m [.interrupted] = some idx ∧ ∀ reads : List ReadResult, .failed ∉ reads →
      reads.flatMap ReadResult.bytes = idx → ∀ rioBuf buf blank, ∃ calls,
        initFileset blank calls (rioInit reads rioBuf) buf ⟨0,[]⟩ =
          some ⟨1,[info (fileName pages 0,letters)]⟩ := by
  obtain ⟨m,hm,hnr,hfiles⟩ := letters_made
  obtain ⟨idx,hidx,hread⟩ := index_round_trip hm (by simp : .failed ∉ [WriteResult.interrupted])
  refine ⟨m,idx,hm,hidx,fun reads hreads hbytes => ?_⟩
  have h := (hread reads hreads hbytes).mpr ⟨by simp [hfiles],by decide⟩
  simpa [hfiles,hnr] using h

end FilesetIndex
end OsLabs

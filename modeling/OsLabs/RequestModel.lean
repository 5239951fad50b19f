import OsLabs.ServerModel

/-!
# The requests of the web server

The model of `webserver/request.c`, and of `do_server_request` around the cache: what a request
closes, allocates, frees and sends. The steps of a server with a cache are the ones of
`ServerModel`; a server without a cache reads and sends every file.

The requests are numbered as their `file_data` objects are: request `n` allocates object `n`.
-/

namespace OsLabs
namespace RequestModel

open CacheModel ServerModel

abbrev CString := FileName

def emptyString : CString := ⟨[],by simp⟩

theorem notMem_takeWhile {l : List (BitVec 8)} (h : 0 ∉ l) (p : BitVec 8 → Bool) :
    0 ∉ l.takeWhile p := fun hm => h ((List.takeWhile_prefix p).subset hm)

theorem notMem_dropWhile {l : List (BitVec 8)} (h : 0 ∉ l) (p : BitVec 8 → Bool) :
    0 ∉ l.dropWhile p := fun hm => h ((List.dropWhile_suffix p).subset hm)

/-! ### `request.c` -/

/-- What `stat` says of the file when it is read. -/
inductive FileStat
  | missing
  /-- not a regular file, or not readable -/
  | forbidden
  | file (size : BitVec 32)
  deriving DecidableEq

/-- What `do_server_request` reads for a connection. The arrays `method` and `uri` keep what they
hold when the line has no word for them. -/
structure Request where
  line : CString
  method : CString
  uri : CString
  stat : FileStat

/-- The arguments of `request_error` -/
structure RequestError where
  cause : CString
  errnum : String
  shortmsg : String
  longmsg : String

def isspace (c : BitVec 8) : Bool := c = 32 || (9 ≤ c && c ≤ 13)

/-- A `%s` of `sscanf`: the next word, and what is behind it. -/
def scanWord (buf : CString) : Option (CString × CString) :=
  let rest := buf.1.dropWhile isspace
  if rest = [] then none
  else some (⟨rest.takeWhile (!isspace ·),notMem_takeWhile (notMem_dropWhile buf.2 _) _⟩,
    ⟨rest.dropWhile (!isspace ·),notMem_dropWhile (notMem_dropWhile buf.2 _) _⟩)

/-- `method` and `uri` after `sscanf` -/
def scanLine (rq : Request) : CString × CString :=
  match scanWord rq.line with
  | none => (rq.method,rq.uri)
  | some (method,rest) =>
    match scanWord rest with
    | none => (method,rq.uri)
    | some (uri,_) => (method,uri)

def tolower (c : BitVec 8) : BitVec 8 := if 65 ≤ c ∧ c ≤ 90 then c+32 else c

/-- The strings are equal but for their case. -/
def strcasecmp (s t : List (BitVec 8)) : Bool := s.map tolower = t.map tolower

def maxLine : ℕ := 8192

theorem notMem_dotSlash {uri : List (BitVec 8)} (h : 0 ∉ uri) (n : ℕ) :
    0 ∉ ([46,47] ++ uri).take n := fun hm => by
  rcases List.mem_append.mp ((List.take_sublist ..).subset hm) with hm | hm
  · exact absurd hm (by decide)
  · exact h hm

/-- `snprintf` cuts the name. -/
def requestParseURI (uri : CString) (max : ℕ) : FileName :=
  ⟨([46,47] ++ uri.1).take (max-1),notMem_dotSlash uri.2 _⟩

def requestInit (rq : Request) : Except RequestError FileName :=
  let (method,uri) := scanLine rq
  if strcasecmp method.1 [71,69,84] then .ok (requestParseURI uri maxLine)
  else .error ⟨method,"501","Not Implemented","OS Web Server does not implement this method"⟩

/-- The string from the last occurrence of the character on. -/
def strrchr (c : BitVec 8) : List (BitVec 8) → Option (List (BitVec 8))
  | [] => none
  | x::l => (strrchr c l).or (if x = c then some (x::l) else none)

/-- The size of the file, or the error that is sent. -/
def requestReadfile (fileName : FileName) (sbuf : FileStat) : Except RequestError (BitVec 32) :=
  if fileName.1.head? = some 47 then
    .error ⟨fileName,"404","Not found","OS Web Server doesn't serve files with absolute paths"⟩
  else if [46,46] <:+: fileName.1 then
    .error ⟨fileName,"404","Not found","OS Web Server doesn't serve files with .. in the path"⟩
  else if strrchr 46 fileName.1 = some [46,99] ∨ strrchr 46 fileName.1 = some [46,104] then
    .error ⟨fileName,"404","Not found","OS Web Server doesn't serve C or header files "⟩
  else match sbuf with
  | .missing => .error ⟨fileName,"404","Not found","OS Web Server could not find this file"⟩
  | .forbidden => .error ⟨fileName,"403","Forbidden","OS Web Server could not read this file"⟩
  | .file size => .ok size

/-! ### `do_server_request` -/

variable (requests : File → Request)

/-- The name that is derived from the URI of the request. -/
def nameOf (n : File) : FileName := requestParseURI (scanLine (requests n)).2 maxLine

/-- What `request_readfile` returns for the request. -/
def readOf (n : File) : Except RequestError (BitVec 32) :=
  requestReadfile (nameOf requests n) (requests n).stat

/-- The name and the size that the request fills in. -/
def fileData (n : File) : FileData :=
  ⟨nameOf requests n,match readOf requests n with | .ok size => size | .error _ => 0⟩

inductive Block
  | fileData | fileName | fileBuf
  deriving DecidableEq

/-- What a request does, by its number. -/
inductive Event
  | allocated (n : File) (block : Block)
  | freed (n : File) (block : Block)
  | closed (n : File)
  | freedRequest (n : File)
  /-- `request_sendfile` of an object; `none` is one that was freed -/
  | sent (n : File) (data : Option File)
  | returned (n : File)
  deriving DecidableEq

/-- `request` is the request that a worker serves, and `log` what has been done, in order. -/
structure State where
  server : Server
  request : Worker → File
  log : List Event

def State.emit (s : State) (events : List Event) (server : Server) : State :=
  { s with server := server, log := s.log ++ events }

/-- `file_data_init` and the `Malloc` of `request_init` -/
def fileDataInit (n : File) : List Event := [.allocated n .fileData,.allocated n .fileName]

/-- The buffer of a file that is not empty -/
def allocateBuf (n : File) (size : BitVec 32) : List Event :=
  if size = 0 then [] else [.allocated n .fileBuf]

/-- Without a buffer `file_buf` is `NULL`. -/
def fileDataFree (n : File) (size : BitVec 32) : List Event :=
  .freed n .fileName::((if size = 0 then [] else [.freed n .fileBuf]) ++ [.freed n .fileData])

def requestDestroy (n : File) : List Event := [.closed n,.freedRequest n]

/-- Up to the return of `request_init`; when it fails, it has destroyed the request. -/
def startRequest (w : Worker) (pc : Pc) (s : State) : State :=
  let n := s.server.nextFile
  let server := { s.server with nextFile := n+1 }
  match requestInit (requests n) with
  | .error _ =>
    s.emit (fileDataInit n ++ requestDestroy n ++ fileDataFree n 0 ++ [.returned n]) server
  | .ok _ =>
    { s with request := Function.update s.request w n }.emit (fileDataInit n) (server.setWorker w pc)

/-- A lookup that finds the file frees the structure of the request and nothing else. -/
def lookupEvents (data : File) (c : Cache) : List Event :=
  match (lookupFile (fileData requests) data c).1 with
  | some (some _) => [.freed data .fileData]
  | _ => []

/-- `remove_from_cache` has freed the object. -/
def isFreed (c : Cache) (data : File) : Bool := c.removals.any (·.freed = some data)

/-- A step with a cache. The label `out:` is followed by the label `done:`. -/
def cachedStep (w : Worker) (s : State) : Option State :=
  let n := s.request w
  let goOn := fun events => (runWorker (fileData requests) w s.server).map (s.emit events)
  let undefined := fun events => some (s.emit events { s.server with status := .undefined })
  match s.server.workers w with
  | .idle => some (startRequest requests w (.requested s.server.nextFile) s)
  | .requested data => goOn (lookupEvents requests data s.server.cache)
  | .missed data =>
    match readOf requests data with
    | .error _ =>
      (failWorker w s.server).map (s.emit
        (requestDestroy n ++ fileDataFree data 0 ++ requestDestroy n ++ [.returned n]))
    | .ok size => goOn (allocateBuf data size)
  | .read data => goOn (lookupEvents requests data s.server.cache)
  | .evicting _ _ _ => goOn []
  | .chosen data => if isFreed s.server.cache data then undefined [.sent n none] else goOn []
  | .sending data =>
    if isFreed s.server.cache data then undefined [.sent n none] else goOn [.sent n (some data)]
  | .sent data => if isFreed s.server.cache data then undefined [] else goOn []
  | .signalling _ =>
    (runWorker (fileData requests) w s.server).map fun server =>
      s.emit (if server.status = .running then requestDestroy n ++ [.returned n] else []) server

/-- A step without a cache. -/
def plainStep (w : Worker) (s : State) : Option State :=
  let n := s.request w
  match s.server.workers w with
  | .idle => some (startRequest requests w (.missed s.server.nextFile) s)
  | .missed data =>
    match readOf requests data with
    | .error _ =>
      some (s.emit (requestDestroy n ++ fileDataFree data 0 ++ [.returned n])
        (s.server.setWorker w .idle))
    | .ok size => some (s.emit (allocateBuf data size) (s.server.setWorker w (.sending data)))
  | .sending data =>
    some (s.emit ([.sent n (some data)] ++ requestDestroy n ++
        fileDataFree data (fileData requests data).fileSize ++ [.returned n])
      (s.server.setWorker w .idle))
  | _ => none

/-- `server_init` makes a cache for a positive size. -/
def hasCache (maxCacheSize : BitVec 32) : Bool := 0 < maxCacheSize.toInt

/-- A step of a worker. -/
def step (maxCacheSize : BitVec 32) (s : State) (w : Worker) : Option State :=
  if s.server.status ≠ .running then none
  else if hasCache maxCacheSize then cachedStep requests w s
  else plainStep requests w s

def init (maxCacheSize : BitVec 32) : State where
  server := serverInit maxCacheSize
  request := fun _ => 0
  log := []

end RequestModel
end OsLabs

import OsLabs.CacheModel

/-!
# The workers of the web server

The model of `do_server_request` in `webserver/server_thread.c` for a server with a cache.
Every section that `cache_access` or `inflight_access` protects is one step of a worker; a
worker that waits in `remove_from_cache` for a file to be sent keeps `cache_access`.

Each request allocates a `file_data` object of its own, numbered in this order, and `files`
gives the name and the size that the request fills in: the sequence of the requested names
is part of `files`.
-/

namespace OsLabs
namespace ServerModel

open CacheModel

abbrev Worker := ℕ

/-- A `sched_queue` entry; its `filename` is the one of the object. -/
structure Entry where
  id : ℕ
  data : File
  deriving DecidableEq

/-- Where a worker stands in `do_server_request`. -/
inductive Pc
  | idle
  /-- `request_init` has filled in the name -/
  | requested (data : File)
  /-- the first lookup has failed -/
  | missed (data : File)
  /-- `request_readfile` has read the file -/
  | read (data : File)
  /-- in `pthread_cond_wait` of `remove_from_cache`, called by `insert_to_cache` -/
  | evicting (data elem : File) (inFlightFile : Entry)
  /-- `cache_access` is released, and `data` is the file to send -/
  | chosen (data : File)
  /-- in `request_sendfile` -/
  | sending (data : File)
  /-- `request_sendfile` has returned -/
  | sent (data : File)
  /-- the entry has been removed, and the signal not been sent -/
  | signalling (foundFile : Entry)
  deriving DecidableEq

inductive Status
  | running | crashed | undefined
  deriving DecidableEq

structure Server where
  cache : Cache
  /-- the worker that holds `cache_access` between two steps -/
  cacheAccess : Option Worker
  inflightQ : List Entry
  freedEntries : List Entry
  workers : Worker → Pc
  nextFile : File
  nextEntry : ℕ
  status : Status

def Server.setWorker (w : Worker) (pc : Pc) (s : Server) : Server :=
  { s with workers := Function.update s.workers w pc }

variable (files : File → FileData)

/-! ### The queue `inflight_q` -/

def addToQueue (data : File) (s : Server) : Server :=
  { s with inflightQ := s.inflightQ ++ [⟨s.nextEntry,data⟩], nextEntry := s.nextEntry+1 }

def isInFlight (q : List Entry) (data : File) : Option Entry := q.find? (sameName files ·.data data)

def removeFromQueue (data : File) (q : List Entry) : Option (Entry × List Entry) :=
  (isInFlight files q data).map fun head => (head,q.eraseP (sameName files ·.data data))

/-! ### The sections under `cache_access` -/

/-- `cache_insert` up to its return or to a file in flight; the first number bounds the
evictions. -/
def evictions (q : List Entry) (data : File) : ℕ → Progress → Progress
  | n+1, .removes elem c =>
    match isInFlight files q elem with
    | some _ => .removes elem c
    | none => evictions q data n (insertNext files data elem c)
  | _, p => p

/-- The worker has reached a wait or the end of the section. -/
def leaveInsert (w : Worker) (data : File) (p : Progress) (s : Server) : Server :=
  match p with
  | .returns _ c => { s with cache := c, cacheAccess := none }.setWorker w (.chosen data)
  | .crashes => { s with status := .crashed }
  | .removes elem c =>
    match isInFlight files s.inflightQ elem with
    | none => { s with status := .crashed }
    | some entry =>
      { s with cache := c, cacheAccess := some w }.setWorker w (.evicting data elem entry)

/-- `cache_lookup` and `getCachedFile`: the file to send, when it is cached. -/
def lookupFile (data : File) (c : Cache) : Option (Option File) × Cache :=
  let (found,c) := cacheLookup files data c
  (if found then some (getCachedFile files data c.lruPolicy) else none,c)

/-- The first section: look for the file before it is read. -/
def firstSection (w : Worker) (data : File) (s : Server) : Server :=
  match lookupFile files data s.cache with
  | (none,c) => { s with cache := c }.setWorker w (.missed data)
  | (some none,_) => { s with status := .crashed }
  | (some (some file),c) => { s with cache := c }.setWorker w (.chosen file)

/-- The second section: look for the file once more, or insert it. -/
def secondSection (w : Worker) (data : File) (s : Server) : Server :=
  match lookupFile files data s.cache with
  | (none,c) =>
    leaveInsert files w data
      (evictions files s.inflightQ data c.lruPolicy.length (insertStart files data c)) s
  | (some none,_) => { s with status := .crashed }
  | (some (some file),c) => { s with cache := c }.setWorker w (.chosen file)

/-- `remove_from_cache` goes on after the wait: the entry is deallocated, and the file may be
in flight again. -/
def afterWait (w : Worker) (data elem : File) (inFlightFile : Entry) (s : Server) : Server :=
  if inFlightFile ∈ s.inflightQ then { s with status := .undefined }
  else
    leaveInsert files w data
      (evictions files s.inflightQ data (s.cache.lruPolicy.length+1) (.removes elem s.cache))
      { s with freedEntries := inFlightFile::s.freedEntries }

/-! ### Steps -/

inductive Action
  /-- the worker goes on -/
  | run (w : Worker)
  /-- the worker's `request_init` or `request_readfile` fails -/
  | fail (w : Worker)
  deriving DecidableEq

/-- The worker's next step, if no other worker holds a mutex that it needs. `pthread_cond_wait`
may return at any time. -/
def runWorker (w : Worker) (s : Server) : Option Server :=
  match s.workers w with
  | .idle => some ({ s with nextFile := s.nextFile+1 }.setWorker w (.requested s.nextFile))
  | .requested data => if s.cacheAccess = none then some (firstSection files w data s) else none
  | .missed data => some (s.setWorker w (.read data))
  | .read data => if s.cacheAccess = none then some (secondSection files w data s) else none
  | .evicting data elem inFlightFile => some (afterWait files w data elem inFlightFile s)
  | .chosen data => some ((addToQueue data s).setWorker w (.sending data))
  | .sending data => some (s.setWorker w (.sent data))
  | .sent data =>
    match removeFromQueue files data s.inflightQ with
    | none => some { s with status := .crashed }
    | some (foundFile,q) => some ({ s with inflightQ := q }.setWorker w (.signalling foundFile))
  | .signalling foundFile =>
    if foundFile ∈ s.freedEntries then some { s with status := .undefined }
    else some (s.setWorker w .idle)

/-- The second `request_destroy` behind a failing `request_readfile` is left to `RequestClosing`. -/
def failWorker (w : Worker) (s : Server) : Option Server :=
  match s.workers w with
  | .idle => some { s with nextFile := s.nextFile+1 }
  | .missed _ => some (s.setWorker w .idle)
  | _ => none

def step (s : Server) (a : Action) : Option Server :=
  if s.status ≠ .running then none
  else match a with
  | .run w => runWorker files w s
  | .fail w => failWorker w s

/-- The server that `server_init` has made with a cache. -/
def serverInit (maxCacheSize : BitVec 32) : Server where
  cache := initCache maxCacheSize
  cacheAccess := none
  inflightQ := []
  freedEntries := []
  workers := fun _ => .idle
  nextFile := 0
  nextEntry := 0
  status := .running

end ServerModel
end OsLabs

import Mathlib.Data.BitVec
import Mathlib.Algebra.BigOperators.Group.Finset.Basic
import Mathlib.Order.Interval.Finset.Basic
import Mathlib.Data.Int.Interval
import Mathlib.Tactic
import OsLabs.Transition

/-!
# The file cache of the web server

The model of the cache in `webserver/server_thread.c`: the chained hash table, the list
`LRU_Policy` and the counter `curr_size`. A `file_data` object is named by a number, one for
each allocation, and `files` gives its contents; nobody changes the name of an object that
was passed to the cache, or the size of one that was inserted. The type `int` is `BitVec 32`.

`insert_to_cache` is cut at its calls of `remove_from_cache`, which may wait for a file to be
sent, so that the same definitions serve the calls that run to their end and the ones of
several workers.
-/

namespace OsLabs
namespace CacheModel

/-- A string of C: no character is 0. -/
abbrev FileName := {l : List (BitVec 8) // 0 ∉ l}

structure FileData where
  fileName : FileName
  fileSize : BitVec 32
  deriving DecidableEq

/-- A pointer to a `file_data` object. -/
abbrev File := ℕ

/-- A call of `remove_from_cache`: the file it was asked to remove, and the one it freed. -/
structure Removal where
  data : File
  freed : Option File
  deriving DecidableEq

/-- The cache `fileCache` and the list `LRU_Policy`, with the calls of `remove_from_cache`
so far, latest first. -/
structure Cache where
  maxSize : BitVec 32
  currSize : BitVec 32
  arraySize : ℤ
  mapping : ℤ → List File
  lruPolicy : List File
  removals : List Removal

/-- What `insert_to_cache` does until it returns or calls `remove_from_cache`. -/
inductive Progress
  | returns (inserted : Bool) (c : Cache)
  | removes (elem : File) (c : Cache)
  | crashes

def initCache (maxSize : BitVec 32) : Cache where
  maxSize := maxSize
  currSize := 0
  arraySize := 2*maxSize.toInt.tdiv 4096
  mapping := fun _ => []
  lruPolicy := []
  removals := []

def hashValue (str : FileName) : BitVec 64 :=
  str.1.foldl (fun hash c => ((hash <<< 5)+hash)+c.signExtend 64) 5381

/-- The index of the chain for a name. -/
def bucket (arraySize : ℤ) (str : FileName) : ℤ :=
  let hash := (hashValue str).toInt.tmod arraySize
  if hash < 0 then hash+arraySize else hash

variable (files : File → FileData)

def sameName (f data : File) : Bool := (files f).fileName = (files data).fileName

/-! ### The list `LRU_Policy` -/

def pushBack (data : File) (l : List File) : List File := l ++ [data]

def getCachedFile (data : File) (l : List File) : Option File := l.find? (sameName files · data)

def removeLRUFile : List File → Option (File × List File)
  | [] => none
  | head::l => some (head,l)

/-- The head and the tail are tried before the elements in the middle. -/
def removeFileToBeMovedToBack (data : File) : List File → Option (File × List File)
  | [] => none
  | head::l =>
    if sameName files head data then some (head,l)
    else if sameName files ((head::l).getLast (by simp)) data then
      some ((head::l).getLast (by simp),(head::l).dropLast)
    else ((head::l).find? (sameName files · data)).map fun curr => (curr,(head::l).erase curr)

def cacheLookup (data : File) (c : Cache) : Bool × Cache :=
  match removeFileToBeMovedToBack files data c.lruPolicy with
  | none => (false,c)
  | some (info,l) => (true,{ c with lruPolicy := pushBack info l })

/-! ### The hash table -/

def unlink (data : File) : List File → Option (File × List File)
  | [] => none
  | curr::next =>
    if sameName files curr data then some (curr,next)
    else (unlink data next).map fun r => (r.1,curr::r.2)

/-- `remove_from_cache`, once the file is not in flight. -/
def removeFromCache (data : File) (c : Cache) : Cache :=
  let hash := bucket c.arraySize (files data).fileName
  match unlink files data (c.mapping hash) with
  | none => { c with removals := ⟨data,none⟩::c.removals }
  | some (curr,chain) =>
    { c with
      mapping := Function.update c.mapping hash chain
      currSize := c.currSize-(files curr).fileSize
      removals := ⟨data,some curr⟩::c.removals }

def fits (data : File) (c : Cache) : Bool := (c.currSize+(files data).fileSize).sle c.maxSize

/-- The loop that evicts files, from its test to the next call of `remove_from_cache` or to
the recursive call after it. -/
def evictLoop (data : File) (insert : Cache → Progress) (c : Cache) : Progress :=
  if fits files data c then insert c
  else if c.currSize = 0 then insert c
  else match removeLRUFile c.lruPolicy with
    | none => .crashes
    | some (elem,l) => .removes elem { c with lruPolicy := l }

/-- The first argument bounds the depth of the recursion. -/
def insertToCache (data : File) : ℕ → Cache → Progress
  | 0, _ => .crashes
  | n+1, c =>
    if c.maxSize.slt (files data).fileSize then .returns false c
    else if c.arraySize = 0 then .crashes
    else
      let hash := bucket c.arraySize (files data).fileName
      let add := fun chain =>
        { c with
          mapping := Function.update c.mapping hash chain
          currSize := c.currSize+(files data).fileSize
          lruPolicy := pushBack data c.lruPolicy }
      match c.mapping hash with
      | [] =>
        if fits files data c then .returns true (add [data])
        else evictLoop files data (insertToCache data n) c
      | chain =>
        if chain.any (sameName files · data) then .returns false c
        else if fits files data c then .returns true (add (chain ++ [data]))
        else evictLoop files data (insertToCache data n) c

/-- The evicting loops leave enough room, so one recursive call is enough. -/
def insertDepth : ℕ := 2

/-- `cache_insert` up to the first call of `remove_from_cache`. -/
def insertStart (data : File) (c : Cache) : Progress := insertToCache files data insertDepth c

/-- `cache_insert` from the removal of a file to the next call of `remove_from_cache`. -/
def insertNext (data elem : File) (c : Cache) : Progress :=
  evictLoop files data (insertToCache files data insertDepth) (removeFromCache files elem c)

/-! ### Calls that run to their end -/

/-- Finish a call of `cache_insert`; the first argument bounds the number of evictions. -/
def finishInsert (data : File) : ℕ → Progress → Option (Bool × Cache)
  | _, .returns inserted c => some (inserted,c)
  | n+1, .removes elem c => finishInsert data n (insertNext files data elem c)
  | _, _ => none

def cacheInsert (data : File) (c : Cache) : Option (Bool × Cache) :=
  finishInsert files data c.lruPolicy.length (insertStart files data c)

inductive Action
  | lookup (data : File)
  | insert (data : File)
  deriving DecidableEq

/-- A call of the cache; `none` is the state after a crash. -/
def step : Option Cache → Action → Option (Option Cache)
  | none, _ => none
  | some c, .lookup data => some (some (cacheLookup files data c).2)
  | some c, .insert data => some ((cacheInsert files data c).map Prod.snd)

end CacheModel
end OsLabs

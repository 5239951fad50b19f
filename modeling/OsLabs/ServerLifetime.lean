import OsLabs.CacheModel

/-!
# Start-up and shutdown of the server

`server_init` makes `nr_threads` workers, and a cache if its limit is positive; `server_exit`
walks over the workers up to `max_requests` and destroys the cache in any case. So the two fit
together if and only if the two bounds are equal and there is a cache.
-/

namespace OsLabs
namespace ServerLifetime

open CacheModel

/-- A call of the main thread; `pthreadCreate i` and `pthreadJoin i` are about the element `i` of
`thread_pool`, and `destroyCache` has the pointer it was given. -/
inductive Call
  | pthreadCreate (i : ℕ)
  | broadcast
  | pthreadJoin (i : ℕ)
  | freeThreadPool
  | destroyCache (wc : Option Cache)
  | freeServer

structure Server where
  nrThreads : BitVec 32
  maxRequests : BitVec 32
  maxCacheSize : BitVec 32
  exiting : Bool

/-- The global variables and the calls so far. Of `thread_pool` the model keeps the number of its
elements; `none` is a pointer that is NULL. -/
structure Globals where
  threadPool : Option ℕ
  fileCache : Option Cache
  isServerExiting : Bool
  calls : List Call

/-- The globals before `main`. -/
def Globals.initial : Globals := ⟨none,none,false,[]⟩

def call (c : Call) (g : Globals) : Globals := { g with calls := g.calls ++ [c] }

/-- The loop `for (i = 0; i < n; i++)`. -/
def forLoop (body : ℕ → Globals → Globals) : ℕ → Globals → Globals
  | 0, g => g
  | n+1, g => body n (forLoop body n g)

/-- The memory is there and `pthread_create` succeeds, as the code takes for granted. -/
def serverInit (nrThreads maxRequests maxCacheSize : BitVec 32) (g : Globals) : Server × Globals :=
  let g := if 0 < maxCacheSize.toInt then { g with fileCache := some (initCache maxCacheSize) } else g
  let g :=
    if 0 < nrThreads.toInt then
      forLoop (fun i => call (.pthreadCreate i)) nrThreads.toInt.toNat
        { g with threadPool := some nrThreads.toInt.toNat }
    else g
  (⟨nrThreads,maxRequests,maxCacheSize,false⟩,g)

def destroyCacheWrapper (g : Globals) : Globals :=
  { call (.destroyCache g.fileCache) g with fileCache := none }

/-- A call with a pointer or an index that is not valid stays in the list, with the calls that
the code has behind it. -/
def serverExit (sv : Server) (g : Globals) : Globals :=
  let g :=
    if 0 < sv.nrThreads.toInt then
      let g := call .broadcast { g with isServerExiting := true }
      let g := forLoop (fun i => call (.pthreadJoin i)) sv.maxRequests.toInt.toNat g
      let g := { call .freeThreadPool g with threadPool := none }
      destroyCacheWrapper g
    else g
  call .freeServer g

/-- The elements of `thread_pool` that the calls join. -/
def joins (calls : List Call) : List ℕ :=
  calls.filterMap fun
    | .pthreadJoin i => some i
    | _ => none

/-- The calls of `server_exit` match the start-up that led to `g`. -/
structure Matches (g : Globals) (calls : List Call) : Prop where
  joined : ∀ i, .pthreadCreate i ∈ g.calls → (joins calls).count i = 1
  inside : ∀ i, .pthreadJoin i ∈ calls → ∃ n, g.threadPool = some n ∧ i < n
  ordered : ∀ before c after, calls = before ++ c::after →
    (c = .freeThreadPool ∨ ∃ wc, c = .destroyCache wc) →
    ∀ i, .pthreadCreate i ∈ g.calls → .pthreadJoin i ∈ before
  cached : ∀ wc, .destroyCache wc ∈ calls → g.fileCache ≠ none

variable {nrThreads maxRequests maxCacheSize : BitVec 32} {g : Globals} {c : Call} {i : ℕ}

theorem forLoop_call (f : ℕ → Call) (n : ℕ) :
    forLoop (fun i => call (f i)) n g = { g with calls := g.calls ++ (List.range n).map f } := by
  induction n with
  | zero => simp [forLoop]
  | succ n ih => simp [forLoop,ih,call,List.range_succ]

/-- The globals when the server exits: the requests have changed the cache, if there is one. -/
def serving (nrThreads maxRequests maxCacheSize : BitVec 32) (requests : Cache → Cache) : Globals :=
  let g := (serverInit nrThreads maxRequests maxCacheSize .initial).2
  { g with fileCache := g.fileCache.map requests }

/-- The calls of `server_exit` behind a start-up with the same arguments. -/
def exitCalls (nrThreads maxRequests maxCacheSize : BitVec 32) (requests : Cache → Cache) : List Call :=
  let sv := (serverInit nrThreads maxRequests maxCacheSize .initial).1
  (serverExit sv { serving nrThreads maxRequests maxCacheSize requests with calls := [] }).calls

section Calls

variable (hn : 0 < nrThreads.toInt) (maxRequests maxCacheSize) (requests : Cache → Cache)
include hn

theorem serving_eq : serving nrThreads maxRequests maxCacheSize requests =
    ⟨some nrThreads.toInt.toNat,
      if 0 < maxCacheSize.toInt then some (requests (initCache maxCacheSize)) else none,false,
      (List.range nrThreads.toInt.toNat).map .pthreadCreate⟩ := by
  simp only [serving,serverInit,if_pos hn,forLoop_call]
  split <;> rfl

theorem exitCalls_eq : exitCalls nrThreads maxRequests maxCacheSize requests =
    .broadcast::(List.range maxRequests.toInt.toNat).map .pthreadJoin ++
      [.freeThreadPool,
        .destroyCache (serving nrThreads maxRequests maxCacheSize requests).fileCache,.freeServer] := by
  simp [exitCalls,serverExit,serverInit,if_pos hn,forLoop_call,destroyCacheWrapper,call]

theorem joins_exitCalls : joins (exitCalls nrThreads maxRequests maxCacheSize requests) =
    List.range maxRequests.toInt.toNat := by
  rw [exitCalls_eq maxRequests maxCacheSize hn requests]
  simp [joins,List.filterMap_append,List.filterMap_map]

theorem mem_created : .pthreadCreate i ∈ (serving nrThreads maxRequests maxCacheSize requests).calls ↔
    i < nrThreads.toInt.toNat := by
  simp [serving_eq maxRequests maxCacheSize hn requests]

theorem mem_joined : .pthreadJoin i ∈ exitCalls nrThreads maxRequests maxCacheSize requests ↔
    i < maxRequests.toInt.toNat := by
  simp [exitCalls_eq maxRequests maxCacheSize hn requests]

/-- What is freed or destroyed is so behind all joins. -/
theorem joined_before {before after : List Call}
    (he : exitCalls nrThreads maxRequests maxCacheSize requests = before ++ c::after)
    (hc : c = .freeThreadPool ∨ ∃ wc, c = .destroyCache wc) (hi : i < maxRequests.toInt.toNat) :
    .pthreadJoin i ∈ before := by
  rw [exitCalls_eq maxRequests maxCacheSize hn requests] at he
  have hmem : Call.pthreadJoin i ∈
      Call.broadcast::(List.range maxRequests.toInt.toNat).map .pthreadJoin := by simpa using hi
  rcases List.append_eq_append_iff.mp he with ⟨rest,hbefore,-⟩ | ⟨rest,hjoins,hrest⟩
  · rw [hbefore]
    exact List.mem_append_left _ hmem
  · cases rest with
    | nil => rwa [hjoins,List.append_nil] at hmem
    | cons c' rest =>
      obtain rfl : c = c' := (List.cons.inj hrest).1
      have hc' : c ∈ Call.broadcast::(List.range maxRequests.toInt.toNat).map .pthreadJoin := by
        rw [hjoins]
        simp
      rcases hc with rfl | ⟨wc,rfl⟩ <;> simp at hc'

/-- The shutdown matches the start-up if and only if `max_requests` is the number of threads and
there is a cache. -/
theorem shutdown_matches_iff :
    Matches (serving nrThreads maxRequests maxCacheSize requests)
        (exitCalls nrThreads maxRequests maxCacheSize requests) ↔
      maxRequests = nrThreads ∧ 0 < maxCacheSize.toInt := by
  constructor
  · intro h
    refine ⟨?_,?_⟩
    · have hle : nrThreads.toInt.toNat ≤ maxRequests.toInt.toNat := by
        by_contra hlt
        have hone := h.joined _ ((mem_created maxRequests maxCacheSize hn requests).mpr (not_le.mp hlt))
        rw [joins_exitCalls maxRequests maxCacheSize hn requests] at hone
        simp [List.count_eq_zero_of_not_mem] at hone
      have hge : maxRequests.toInt.toNat ≤ nrThreads.toInt.toNat := by
        by_contra hlt
        obtain ⟨n,hpool,hin⟩ :=
          h.inside _ ((mem_joined maxRequests maxCacheSize hn requests).mpr (not_le.mp hlt))
        rw [serving_eq maxRequests maxCacheSize hn requests] at hpool
        obtain rfl := Option.some.inj hpool
        exact lt_irrefl _ hin
      exact BitVec.eq_of_toInt_eq (by omega)
    · by_contra hcache
      refine h.cached none ?_ ?_
      · rw [exitCalls_eq maxRequests maxCacheSize hn requests,
          serving_eq maxRequests maxCacheSize hn requests]
        simp [hcache]
      · rw [serving_eq maxRequests maxCacheSize hn requests]
        simp [hcache]
  · rintro ⟨rfl,hcache⟩
    refine ⟨fun i hi => ?_,fun i hi => ?_,fun before c after he hc i hi => ?_,fun wc hwc => ?_⟩
    · rw [joins_exitCalls maxRequests maxCacheSize hn requests]
      exact List.count_eq_one_of_mem List.nodup_range
        (List.mem_range.mpr ((mem_created maxRequests maxCacheSize hn requests).mp hi))
    · rw [serving_eq maxRequests maxCacheSize hn requests]
      exact ⟨_,rfl,(mem_joined maxRequests maxCacheSize hn requests).mp hi⟩
    · exact joined_before maxRequests maxCacheSize hn requests he hc
        ((mem_created maxRequests maxCacheSize hn requests).mp hi)
    · rw [serving_eq maxRequests maxCacheSize hn requests]
      simp [hcache]

end Calls

theorem equal_bounds_match :
    Matches (serving 8 8 4096 id) (exitCalls 8 8 4096 id) :=
  (shutdown_matches_iff 8 4096 (by decide) id).mpr (by decide)

/-- With eight threads, four requests and no cache the last four threads are not joined, and a
NULL pointer is destroyed. -/
theorem unequal_bounds_mismatch :
    (joins (exitCalls 8 4 0 id)).count 7 = 0 ∧ .destroyCache none ∈ exitCalls 8 4 0 id ∧
      ¬ Matches (serving 8 4 0 id) (exitCalls 8 4 0 id) := by
  have hcache : (serving 8 4 0 id).fileCache = none := rfl
  have hdestroy : .destroyCache none ∈ exitCalls 8 4 0 id := by
    rw [exitCalls_eq 4 0 (by decide) id,hcache]
    simp
  exact ⟨by decide,hdestroy,fun h => h.cached none hdestroy hcache⟩

end ServerLifetime
end OsLabs

import OsLabs.CacheModel
import OsLabs.DoublyLinked
import OsLabs.ThreadModel

/-!
# The doubly linked lists

The ready queue of `threads/thread.c` and the list `LRU_Policy` of `webserver/server_thread.c`, with
their nodes in memory. Both are the same data structure: the removals differ in the payload and in
how it is compared. In every run that never holds an element twice they are the lists on which the
models of the scheduler and of the cache are built.
-/

namespace OsLabs
namespace ListSequences

open DoublyLinked Transition
open ThreadModel (Tid)
open CacheModel (File FileData sameName)

/-! ## The ready queue -/

abbrev ReadyQueue := Chain Tid

/-- The first argument is what `malloc` returns. -/
def addToHead (newElem : Addr) (id : Tid) (LL : ReadyQueue) : Option ReadyQueue :=
  pushFront newElem id LL

def addToTail (newElem : Addr) (id : Tid) (LL : ReadyQueue) : Option ReadyQueue :=
  DoublyLinked.pushBack newElem id LL

def removeNextReadyThread (LL : ReadyQueue) : Option (Tid × ReadyQueue) :=
  (popFront LL).map fun r => (r.1.getD (-1),r.2)

def removeFromReadyQueue (id : Tid) (LL : ReadyQueue) : Option (Tid × ReadyQueue) :=
  (removeFirst (· == id) LL).map fun r => (r.1.getD (-1),r.2)

inductive ReadyOp
  | addToHead (newElem : Addr) (id : Tid)
  | addToTail (newElem : Addr) (id : Tid)
  | removeNextReadyThread
  | removeFromReadyQueue (id : Tid)

/-- The result of an operation, if it returns one. -/
def ReadyOp.run : ReadyOp → ReadyQueue → Option (Option Tid × ReadyQueue)
  | .addToHead newElem id, q => (ListSequences.addToHead newElem id q).map fun q => (none,q)
  | .addToTail newElem id, q => (ListSequences.addToTail newElem id q).map fun q => (none,q)
  | .removeNextReadyThread, q => (ListSequences.removeNextReadyThread q).map fun r => (some r.1,r.2)
  | .removeFromReadyQueue id, q =>
    (ListSequences.removeFromReadyQueue id q).map fun r => (some r.1,r.2)

/-- The operation on sequences. -/
def ReadyOp.onList : ReadyOp → List Tid → Option Tid × List Tid
  | .addToHead _ id, l => (none,id::l)
  | .addToTail _ id, l => (none,l ++ [id])
  | .removeNextReadyThread, l => (some (l.head?.getD (-1)),l.tail)
  | .removeFromReadyQueue id, l => (some (if id ∈ l then id else -1),l.erase id)

/-- `malloc` returns memory that is not in use, and no identifier is added twice. -/
def ReadyOp.Allowed (s : ReadyQueue × List Tid) : ReadyOp → Prop
  | .addToHead newElem id => s.1.nodes newElem = none ∧ id ∉ s.2
  | .addToTail newElem id => s.1.nodes newElem = none ∧ id ∉ s.2
  | _ => True

theorem atMostOne_of_nodup {l : List Tid} (h : l.Nodup) (id : Tid) : AtMostOne (· == id) l := by
  refine h.imp fun {x y} hne hxy => hne ?_
  simp only [beq_iff_eq] at hxy
  exact hxy.1.trans hxy.2.symm

theorem find?_beq (l : List Tid) (id : Tid) :
    (l.find? (· == id)).getD (-1) = if id ∈ l then id else -1 := by
  cases hf : l.find? (· == id) with
  | none =>
    have hm : id ∉ l := fun hm => by simpa using List.find?_eq_none.mp hf id hm
    rw [if_neg hm,Option.getD_none]
  | some x =>
    obtain rfl : x = id := by simpa using List.find?_some hf
    rw [if_pos (List.mem_of_find?_eq_some hf),Option.getD_some]

section ReadySpecs

variable {q : ReadyQueue} {l : List Tid}

theorem removeFromReadyQueue_spec (h : Holds q l) (hd : l.Nodup) (id : Tid) : ∃ q',
    removeFromReadyQueue id q = some (if id ∈ l then id else -1,q') ∧ Holds q' (l.erase id) := by
  obtain ⟨q',hq',hl⟩ := h.removeFirst (atMostOne_of_nodup hd id)
  rw [← List.erase_eq_eraseP'] at hl
  exact ⟨q',by simp only [removeFromReadyQueue,hq',Option.map_some,find?_beq],hl⟩

theorem removeNextReadyThread_spec (h : Holds q l) :
    ∃ q', removeNextReadyThread q = some (l.head?.getD (-1),q') ∧ Holds q' l.tail := by
  obtain ⟨q',hq',hl⟩ := h.popFront
  exact ⟨q',by simp [removeNextReadyThread,hq'],hl⟩

end ReadySpecs

theorem readyOp_simulates : Simulates ReadyOp.run ReadyOp.onList ReadyOp.Allowed List.Nodup where
  init := List.nodup_nil
  step q l op h hd hop := by
    cases op with
    | addToHead newElem id =>
      obtain ⟨q',hq',hl⟩ := h.pushFront hop.1 id
      exact ⟨List.nodup_cons.mpr ⟨hop.2,hd⟩,q',by simp [ReadyOp.run,addToHead,hq',ReadyOp.onList],hl⟩
    | addToTail newElem id =>
      obtain ⟨q',hq',hl⟩ := h.pushBack hop.1 id
      refine ⟨?_,q',by simp [ReadyOp.run,addToTail,hq',ReadyOp.onList],hl⟩
      exact hd.append (List.nodup_singleton _) (by simpa using hop.2)
    | removeNextReadyThread =>
      obtain ⟨q',hq',hl⟩ := removeNextReadyThread_spec h
      exact ⟨hd.sublist (List.tail_sublist _),q',by simp [ReadyOp.run,hq',ReadyOp.onList],hl⟩
    | removeFromReadyQueue id =>
      obtain ⟨q',hq',hl⟩ := removeFromReadyQueue_spec h hd id
      exact ⟨hd.erase id,q',by simp [ReadyOp.run,hq',ReadyOp.onList],hl⟩

/-- The operations on the ready queue of the scheduler's model. -/
theorem readyQueue_refines {q : ReadyQueue} {s : ThreadModel.State} (h : Holds q s.readyQueue)
    (hd : s.readyQueue.Nodup) (id : Tid) :
    (∀ newElem, q.nodes newElem = none → ∃ q', addToTail newElem id q = some q' ∧
      Holds q' (ThreadModel.addToTail id s).readyQueue) ∧
    (∃ q', removeNextReadyThread q = some ((ThreadModel.removeNextReadyThread s).1,q') ∧
      Holds q' (ThreadModel.removeNextReadyThread s).2.readyQueue) ∧
    ∃ q', removeFromReadyQueue id q = some ((ThreadModel.removeFromReadyQueue id s).1,q') ∧
      Holds q' (ThreadModel.removeFromReadyQueue id s).2.readyQueue := by
  refine ⟨fun newElem hn => h.pushBack hn id,?_,?_⟩
  · obtain ⟨q',hq',hl⟩ := removeNextReadyThread_spec h
    cases hr : s.readyQueue with
    | nil =>
      rw [hr] at hq' hl
      exact ⟨q',by simpa [ThreadModel.removeNextReadyThread,hr] using hq',
        by simpa [ThreadModel.removeNextReadyThread,hr] using hl⟩
    | cons t rest =>
      rw [hr] at hq' hl
      exact ⟨q',by simpa [ThreadModel.removeNextReadyThread,hr] using hq',
        by simpa [ThreadModel.removeNextReadyThread,hr] using hl⟩
  · obtain ⟨q',hq',hl⟩ := removeFromReadyQueue_spec h hd id
    by_cases hm : id ∈ s.readyQueue
    · exact ⟨q',by simpa [ThreadModel.removeFromReadyQueue,hm] using hq',
        by simpa [ThreadModel.removeFromReadyQueue,hm] using hl⟩
    · rw [List.erase_of_not_mem hm] at hl
      exact ⟨q',by simpa [ThreadModel.removeFromReadyQueue,hm] using hq',
        by simpa [ThreadModel.removeFromReadyQueue,hm] using hl⟩

/-! ## The list of the cache -/

abbrev CacheLru := Chain File

/-- It returns `true` whatever happens. -/
def pushBack (newElem : Addr) (data : File) (LL : CacheLru) : Option (Bool × CacheLru) :=
  (DoublyLinked.pushBack newElem data LL).map fun q => (true,q)

def removeLRUFile (LL : CacheLru) : Option (Option File × CacheLru) := popFront LL

variable (files : File → FileData)

def removeFileToBeMovedToBack (data : File) (LL : CacheLru) : Option (Option File × CacheLru) :=
  removeFirst (sameName files · data) LL

inductive LruOp
  | pushBack (newElem : Addr) (data : File)
  | removeLRUFile
  | removeFileToBeMovedToBack (data : File)

inductive LruResult
  | pushed (ok : Bool)
  | removed (data : Option File)
  deriving DecidableEq

def LruOp.run : LruOp → CacheLru → Option (LruResult × CacheLru)
  | .pushBack newElem data, q => (ListSequences.pushBack newElem data q).map fun r => (.pushed r.1,r.2)
  | .removeLRUFile, q => (ListSequences.removeLRUFile q).map fun r => (.removed r.1,r.2)
  | .removeFileToBeMovedToBack data, q =>
    (ListSequences.removeFileToBeMovedToBack files data q).map fun r => (.removed r.1,r.2)

/-- The operation on sequences. -/
def LruOp.onList : LruOp → List File → LruResult × List File
  | .pushBack _ data, l => (.pushed true,l ++ [data])
  | .removeLRUFile, l => (.removed l.head?,l.tail)
  | .removeFileToBeMovedToBack data, l =>
    (.removed (l.find? (sameName files · data)),l.eraseP (sameName files · data))

/-- `malloc` returns memory that is not in use, and no name is added twice. -/
def LruOp.Allowed (s : CacheLru × List File) : LruOp → Prop
  | .pushBack newElem data =>
    s.1.nodes newElem = none ∧ ∀ f ∈ s.2, (files f).fileName ≠ (files data).fileName
  | _ => True

/-- No two files have the same name. -/
def Named (l : List File) : Prop := l.Pairwise fun f g => (files f).fileName ≠ (files g).fileName

variable {files}

theorem atMostOne_of_named {l : List File} (h : Named files l) (data : File) :
    AtMostOne (sameName files · data) l := by
  refine h.imp fun {f g} hne hfg => hne ?_
  simp only [sameName,decide_eq_true_eq] at hfg
  exact hfg.1.trans hfg.2.symm

theorem lruOp_simulates :
    Simulates (LruOp.run files) (LruOp.onList files) (LruOp.Allowed files) (Named files) where
  init := List.Pairwise.nil
  step q l op h hd hop := by
    cases op with
    | pushBack newElem data =>
      obtain ⟨q',hq',hl⟩ := h.pushBack hop.1 data
      refine ⟨?_,q',by simp [LruOp.run,pushBack,hq',LruOp.onList],hl⟩
      exact List.pairwise_append.mpr ⟨hd,List.pairwise_singleton _ _,by simpa using hop.2⟩
    | removeLRUFile =>
      obtain ⟨q',hq',hl⟩ := h.popFront
      exact ⟨hd.sublist (List.tail_sublist _),q',by simp [LruOp.run,removeLRUFile,hq',LruOp.onList],hl⟩
    | removeFileToBeMovedToBack data =>
      obtain ⟨q',hq',hl⟩ := h.removeFirst (atMostOne_of_named hd data)
      exact ⟨hd.sublist List.eraseP_sublist,q',
        by simp [LruOp.run,removeFileToBeMovedToBack,hq',LruOp.onList],hl⟩

/-! ## Both lists -/

/-- In every run on an empty list that never holds an element twice, both lists are the sequences
that the operations make, and every operation succeeds with the result that it has on sequences. -/
theorem lists_are_sequences :
    (∀ s, Reachable (empty Tid,[]) (runStep ReadyOp.run ReadyOp.onList) ReadyOp.Allowed s →
      IsSequence s.1 s.2 ∧ ∀ op, ReadyOp.Allowed s op →
        ∃ q', op.run s.1 = some ((op.onList s.2).1,q')) ∧
    ∀ (files : File → FileData) s,
      Reachable (empty File,[]) (runStep (LruOp.run files) (LruOp.onList files)) (LruOp.Allowed files) s →
        IsSequence s.1 s.2 ∧ ∀ op, LruOp.Allowed files s op →
          ∃ q', op.run files s.1 = some ((op.onList files s.2).1,q') :=
  ⟨fun _ hr => readyOp_simulates.isSequence hr,fun _ _ hr => lruOp_simulates.isSequence hr⟩

/-- Three threads, of which the one in the middle leaves. -/
def threeThreads : ReadyQueue × List Tid :=
  final (runStep ReadyOp.run ReadyOp.onList)
    [.addToTail 0 5,.addToTail 1 7,.addToHead 2 4,.removeFromReadyQueue 5] (empty Tid,[]) rfl

theorem threeThreads_reachable :
    Reachable (empty Tid,[]) (runStep ReadyOp.run ReadyOp.onList) ReadyOp.Allowed threeThreads :=
  .step (ReadyOp.removeFromReadyQueue 5) (.step (ReadyOp.addToHead 2 4) (.step (ReadyOp.addToTail 1 7)
    (.step (ReadyOp.addToTail 0 5) .init ⟨rfl,by decide⟩ rfl) ⟨rfl,by decide⟩ rfl)
    ⟨rfl,by decide⟩ rfl) trivial rfl

/-- Two files; the name of a file is its number. -/
def twoNames (f : File) : FileData := ⟨⟨[BitVec.ofNat 8 (f%2+1)],by
  rcases Nat.mod_two_eq_zero_or_one f with h | h <;> simp [h]⟩,1⟩

def twoFiles : CacheLru × List File :=
  final (runStep (LruOp.run twoNames) (LruOp.onList twoNames)) [.pushBack 0 2,.pushBack 1 3]
    (empty File,[]) rfl

theorem twoFiles_reachable : Reachable (empty File,[])
    (runStep (LruOp.run twoNames) (LruOp.onList twoNames)) (LruOp.Allowed twoNames) twoFiles :=
  .step (LruOp.pushBack 1 3) (.step (LruOp.pushBack 0 2) .init ⟨rfl,by decide⟩ rfl)
    ⟨rfl,by decide⟩ rfl

/-- The file is found by its name, and the other one stays. -/
theorem threeThreads_twoFiles : IsSequence threeThreads.1 [4,7] ∧ IsSequence twoFiles.1 [2,3] ∧
    ∃ q, LruOp.run twoNames (.removeFileToBeMovedToBack 5) twoFiles.1 = some (.removed (some 3),q) :=
  ⟨(lists_are_sequences.1 threeThreads threeThreads_reachable).1,
    (lists_are_sequences.2 twoNames twoFiles twoFiles_reachable).1,
    (lists_are_sequences.2 twoNames twoFiles twoFiles_reachable).2 _ trivial⟩

end ListSequences
end OsLabs

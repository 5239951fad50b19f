import Mathlib.Data.Set.Card
import OsLabs.LinkedQueue
import OsLabs.ServerModel
import OsLabs.Transition

/-!
# The queue of the files in flight

The model of `inflight_q` in `webserver/server_thread.c` with its pointers, and of the sections
under `inflight_access`: a request adds an entry under its file name, and later removes the first
entry with that name, which may be the one of another request. The queue is the list of entries
of `ServerModel`.
-/

namespace OsLabs
namespace InflightQueue

open CacheModel LinkedQueue Transition

/-! ### `struct scdle` -/

def addToQueue (filename : FileName) (schQueue : Queue FileName) : Option (Addr × Queue FileName) := do
  let newElem := schQueue.fresh
  let q ← linkLast newElem (alloc filename schQueue)
  return (newElem,q)

/-- The number of the cells bounds the loop. -/
def isInFlight (filename : FileName) (schQueue : Queue FileName) : Option (Option Addr) :=
  findFrom (· = filename) schQueue schQueue.fresh schQueue.head

/-- The entry is not deallocated. -/
def removeFromQueue (filename : FileName) (schQueue : Queue FileName) :
    Option (Option Addr × Queue FileName) :=
  unlinkFirst (· = filename) schQueue

/-! ### The sections -/

abbrev Worker := ℕ

inductive Pc
  | idle
  /-- between `add_to_queue` and `remove_from_queue` -/
  | sending (filename : FileName)
  deriving DecidableEq

/-- `crashed` is an access through `NULL` or to a cell that is not there. -/
inductive Status
  | running | crashed
  deriving DecidableEq

structure Inflight where
  inflightQ : Queue FileName
  workers : Worker → Pc
  status : Status

def Inflight.setWorker (w : Worker) (pc : Pc) (s : Inflight) : Inflight :=
  { s with workers := Function.update s.workers w pc }

inductive Action
  | add (w : Worker) (filename : FileName)
  | remove (w : Worker)
  /-- `remove_from_cache` looks for an entry of the file that it evicts -/
  | lookUp (filename : FileName)
  deriving DecidableEq

def step (s : Inflight) (a : Action) : Option Inflight :=
  if s.status ≠ .running then none
  else match a with
  | .add w filename =>
    if s.workers w ≠ .idle then none
    else match addToQueue filename s.inflightQ with
    | none => some { s with status := .crashed }
    | some (_,q) => some ({ s with inflightQ := q }.setWorker w (.sending filename))
  | .remove w =>
    match s.workers w with
    | .idle => none
    | .sending filename =>
      match removeFromQueue filename s.inflightQ with
      | some (some _,q) => some ({ s with inflightQ := q }.setWorker w .idle)
      | _ => some { s with status := .crashed }
  | .lookUp filename =>
    match isInFlight filename s.inflightQ with
    | none => some { s with status := .crashed }
    | some _ => some s

def init : Inflight := ⟨empty FileName,fun _ => .idle,.running⟩

/-! ## Entries and requests -/

/-- The requests for a name between `add_to_queue` and `remove_from_queue`. -/
def senders (s : Inflight) (filename : FileName) : Set Worker :=
  {w | s.workers w = .sending filename}

/-- The entries with a name. -/
def entries (l : List (Addr × FileName)) (filename : FileName) : ℕ := l.countP (·.2 = filename)

section Counting

variable {l : List (Addr × FileName)} {filename name : FileName} {s : Inflight} {w : Worker}
  {q : Queue FileName}

theorem entries_append (a : Addr) : entries (l ++ [(a,filename)]) name =
    entries l name + if filename = name then 1 else 0 := by
  simp only [entries,List.countP_append,List.countP_singleton,decide_eq_true_eq]

theorem entries_eraseP (h : ∃ e ∈ l, e.2 = filename) : entries l name =
    entries (l.eraseP (·.2 = filename)) name + if filename = name then 1 else 0 := by
  induction l with
  | nil => simp at h
  | cons e l ih =>
    by_cases he : e.2 = filename
    · rw [List.eraseP_cons_of_pos (by simpa using he),entries,List.countP_cons]
      simp only [he,decide_eq_true_eq]
      rfl
    · have hl : ∃ d ∈ l, d.2 = filename := by simpa [he] using h
      have hrest := ih hl
      rw [List.eraseP_cons_of_neg (by simpa using he)]
      simp only [entries,List.countP_cons] at hrest ⊢
      omega

theorem senders_add (hw : s.workers w = .idle) :
    (senders ({ s with inflightQ := q }.setWorker w (.sending filename)) name).encard =
      (senders s name).encard + if filename = name then 1 else 0 := by
  by_cases hname : filename = name
  · subst hname
    have hnot : w ∉ senders s filename := by simp [senders,hw]
    rw [if_pos rfl,← Set.encard_insert_of_notMem hnot]
    congr 1
    ext v
    by_cases hv : v = w <;> simp [senders,Inflight.setWorker,hv]
  · rw [if_neg hname,add_zero]
    congr 1
    ext v
    by_cases hv : v = w <;> simp [senders,Inflight.setWorker,hv,hname,hw]

theorem senders_remove (hw : s.workers w = .sending filename) :
    (senders s name).encard =
      (senders ({ s with inflightQ := q }.setWorker w .idle) name).encard +
        if filename = name then 1 else 0 := by
  by_cases hname : filename = name
  · subst hname
    have hnot : w ∉ senders ({ s with inflightQ := q }.setWorker w .idle) filename := by
      simp [senders,Inflight.setWorker]
    rw [if_pos rfl,← Set.encard_insert_of_notMem hnot]
    congr 1
    ext v
    by_cases hv : v = w <;> simp [senders,Inflight.setWorker,hv,hw]
  · rw [if_neg hname,add_zero]
    congr 1
    ext v
    by_cases hv : v = w <;> simp [senders,Inflight.setWorker,hv,hname,hw]

end Counting

/-- The queue is linked, and has as many entries of each name as there are requests for it. -/
structure Balanced (s : Inflight) (l : List (Addr × FileName)) : Prop where
  linked : Linked s.inflightQ l
  count : ∀ filename, (entries l filename : ℕ∞) = (senders s filename).encard
  running : s.status = .running

variable {s s' : Inflight} {l : List (Addr × FileName)} {a : Action} {w : Worker}
  {filename : FileName}

theorem balanced_init : Balanced init [] :=
  ⟨linked_empty,fun filename => by simp [entries,senders,init],rfl⟩

/-- A request that has not removed its entry finds one. -/
theorem Balanced.mem (h : Balanced s l) (hw : s.workers w = .sending filename) :
    ∃ e ∈ l, e.2 = filename := by
  have hne : (senders s filename).encard ≠ 0 := by
    rw [Set.encard_ne_zero]
    exact ⟨w,hw⟩
  rw [← h.count filename] at hne
  have hpos : 0 < entries l filename := Nat.pos_of_ne_zero fun hz => hne (by rw [hz]; rfl)
  obtain ⟨e,he,hname⟩ := List.countP_pos_iff.mp hpos
  exact ⟨e,he,by simpa using hname⟩

theorem Balanced.remove (h : Balanced s l) (hw : s.workers w = .sending filename) :
    ∃ foundFile q, removeFromQueue filename s.inflightQ = some (some foundFile,q) ∧
      Linked q (l.eraseP (·.2 = filename)) := by
  obtain ⟨q,hq,hlinked,-⟩ := h.linked.unlink (p := (· = filename))
  obtain ⟨e,he,hname⟩ := h.mem hw
  cases hf : l.find? (fun e => decide (e.2 = filename)) with
  | none => exact absurd hname (by simpa using List.find?_eq_none.mp hf e he)
  | some d =>
    rw [hf] at hq
    exact ⟨d.1,q,hq,hlinked⟩

theorem Balanced.step (h : Balanced s l) (hs : step s a = some s') : ∃ l', Balanced s' l' := by
  unfold InflightQueue.step at hs
  rw [if_neg (not_not_intro h.running)] at hs
  cases a with
  | add w filename =>
    obtain ⟨hw,hs⟩ := Option.ite_none_left_eq_some.mp hs
    obtain ⟨q,hq,hlinked,-⟩ := h.linked.append filename
    simp only [addToQueue,hq,Option.bind_eq_bind,Option.bind_some] at hs
    obtain rfl := Option.some.inj hs
    refine ⟨_,hlinked,fun name => ?_,h.running⟩
    rw [entries_append,senders_add (not_not.mp hw),← h.count name]
    push_cast
    rfl
  | remove w =>
    cases hw : s.workers w with
    | idle => simp [hw] at hs
    | sending filename =>
      obtain ⟨foundFile,q,hq,hlinked⟩ := h.remove hw
      simp only [hw,hq] at hs
      obtain rfl := Option.some.inj hs
      refine ⟨_,hlinked,fun name => ?_,h.running⟩
      have hcount := h.count name
      rw [entries_eraseP (h.mem hw),senders_remove (q := q) hw] at hcount
      split at hcount
      · exact (ENat.add_left_injective_of_ne_top (ENat.natCast_ne_top 1)) (by exact_mod_cast hcount)
      · simpa using hcount
  | lookUp filename =>
    have hfind : isInFlight filename s.inflightQ = _ := h.linked.find
    simp only [hfind] at hs
    obtain rfl := Option.some.inj hs
    exact ⟨l,h⟩

/-- In every interleaving the queue has one entry of a name for each request for that name that
has added its entry and not removed one, `tail` is the last entry, and `remove_from_queue` finds
an entry for each of these requests. -/
theorem inflight_entries_match (s : Inflight) (h : Reachable init step (fun _ _ => True) s) :
    (∃ l : List (Addr × FileName), Linked s.inflightQ l ∧
      (∀ filename, (entries l filename : ℕ∞) =
        {w | s.workers w = .sending filename}.encard) ∧
      (s.inflightQ.head = none ↔ l = []) ∧ s.inflightQ.tail = (addrs l).getLast?) ∧
    (∀ w filename, s.workers w = .sending filename →
      ∃ foundFile q, removeFromQueue filename s.inflightQ = some (some foundFile,q)) ∧
    s.status = .running := by
  obtain ⟨l,hb⟩ := h.invariant (P := fun s => ∃ l, Balanced s l) ⟨[],balanced_init⟩
    (fun s a s' ⟨l,hb⟩ _ hs => hb.step hs)
  refine ⟨⟨l,hb.linked,hb.count,?_,hb.linked.last⟩,fun w filename hw => ?_,hb.running⟩
  · rw [hb.linked.head_eq]
    simp
  · obtain ⟨foundFile,q,hq,-⟩ := hb.remove hw
    exact ⟨foundFile,q,hq⟩

def nameA : FileName := ⟨[65],by decide⟩

def nameB : FileName := ⟨[66],by decide⟩

/-- Two requests for one file and one for another; the second one removes the entry of the first. -/
def crossedSenders : Inflight :=
  final step [.add 0 nameA,.add 1 nameA,.add 2 nameB,.remove 1] init (by decide +kernel)

theorem crossedSenders_match : crossedSenders.inflightQ.head = some 1 ∧
    (∃ l : List (Addr × FileName), Linked crossedSenders.inflightQ l ∧
      (∀ filename, (entries l filename : ℕ∞) =
        {w | crossedSenders.workers w = .sending filename}.encard) ∧
      (crossedSenders.inflightQ.head = none ↔ l = []) ∧
      crossedSenders.inflightQ.tail = (addrs l).getLast?) ∧
    (∀ w filename, crossedSenders.workers w = .sending filename →
      ∃ foundFile q, removeFromQueue filename crossedSenders.inflightQ = some (some foundFile,q)) ∧
    crossedSenders.status = .running :=
  ⟨by decide +kernel,inflight_entries_match _ (reachable_final .init fun _ _ _ => trivial)⟩

/-! ## The queue of the server -/

section Refinement

open ServerModel (Server Entry)

variable (files : File → FileData)

/-- The cells of the queue are the entries of the server, at the addresses of their numbers. -/
structure Implements (q : Queue FileName) (entries : List Entry) (nextEntry : ℕ) : Prop where
  linked : Linked q (entries.map fun e => (e.id,(files e.data).fileName))
  fresh : q.fresh = nextEntry

variable {files} {q : Queue FileName} {es : List Entry} {data : File} {n : ℕ}

theorem find_entries : ((es.map fun e => (e.id,(files e.data).fileName)).find?
    (·.2 = (files data).fileName)).map Prod.fst =
      (ServerModel.isInFlight files es data).map Entry.id := by
  rw [List.find?_map,Option.map_map]
  rfl

theorem Implements.isInFlight (h : Implements files q es n) (data : File) :
    isInFlight (files data).fileName q = some ((ServerModel.isInFlight files es data).map Entry.id) := by
  rw [← find_entries]
  exact h.linked.find

theorem Implements.add {s : Server} (h : Implements files q s.inflightQ s.nextEntry) (data : File) :
    ∃ q', addToQueue (files data).fileName q = some (s.nextEntry,q') ∧
      Implements files q' (ServerModel.addToQueue data s).inflightQ
        (ServerModel.addToQueue data s).nextEntry := by
  obtain ⟨q',hq,hlinked,hfresh⟩ := h.linked.append (files data).fileName
  refine ⟨q',?_,?_,hfresh.trans (by rw [h.fresh]; rfl)⟩
  · simp only [addToQueue,hq,Option.bind_eq_bind,Option.bind_some]
    rw [h.fresh]
    rfl
  · rw [h.fresh] at hlinked
    simpa [ServerModel.addToQueue] using hlinked

theorem Implements.remove (h : Implements files q es n) {foundFile : Entry} {es' : List Entry}
    (hr : ServerModel.removeFromQueue files data es = some (foundFile,es')) :
    ∃ q', removeFromQueue (files data).fileName q = some (some foundFile.id,q') ∧
      Linked q' (es'.map fun e => (e.id,(files e.data).fileName)) := by
  obtain ⟨q',hq,hlinked,-⟩ := h.linked.unlink (p := (· = (files data).fileName))
  obtain ⟨e,hfind,he⟩ := Option.map_eq_some_iff.mp hr
  obtain ⟨rfl,rfl⟩ := Prod.mk.inj he
  rw [find_entries,hfind] at hq
  refine ⟨q',hq,?_⟩
  rw [List.eraseP_map] at hlinked
  exact hlinked

end Refinement

end InflightQueue
end OsLabs

import Mathlib.Data.BitVec
import Mathlib.Tactic
import OsLabs.Transition
import OsLabs.Bytes
import OsLabs.Wlp
import OsLabs.HashLists
import OsLabs.FsModel
import OsLabs.FsVolume

/-!
# The table of inodes in memory

The inodes that are held in memory are in a hash table of 256 lists (`fs/inode.c`, with the lists
and the hash function of `fs/list.h`). The model of the file system has a map from the numbers of
inodes to inodes in its place. `Represents T m` connects the two: every inode is a cell in the list
of its hash value, and no two cells have one number. Every operation on the map can be done in the
table, and does there what it does in the map.
-/

namespace OsLabs
namespace InodeHash

open Bytes FsModel HashLists Transition FsVolume

/-! ## Hash values -/

def inodeHashShift : ℕ := 8

def inodeHashSize : ℕ := 1 <<< inodeHashShift

/-- The product is computed in 64 bits and then cut to 32. -/
def hashInt (val : BitVec 32) (bits : ℕ) : BitVec 32 :=
  ((val.setWidth 64 * 0x9e370001#64).setWidth 32) >>> (32 - bits)

theorem hashInt_lt (val : BitVec 32) {bits : ℕ} (h : bits ≤ 32) :
    (hashInt val bits).toNat < 2^bits := by
  rw [hashInt,BitVec.toNat_ushiftRight,Nat.shiftRight_eq_div_pow]
  refine Nat.div_lt_of_lt_mul ?_
  rw [← Nat.pow_add,Nat.sub_add_cancel h]
  exact BitVec.isLt _

/-- The list in which an inode belongs; the index is inside of the table. -/
def inodeHashfn (nr : ℕ) : Fin inodeHashSize :=
  ⟨(hashInt (BitVec.ofNat 32 nr) inodeHashShift).toNat,hashInt_lt _ (by decide)⟩

/-! ## The table -/

abbrev Ptr := ℕ

/-- A `struct inode` without the node of the list. -/
structure Cell where
  iNr : ℕ
  inode : Inode

structure InodeTable where
  heap : Heap (Fin inodeHashSize) Ptr
  cells : Ptr → Option Cell

/-- `inode_hash_init` on memory with any contents. -/
def inodeHashInit (h : Heap (Fin inodeHashSize) Ptr) : InodeTable where
  heap := (List.finRange inodeHashSize).foldl (fun h b => initHlistHead b h) h
  cells := fun _ => none

/-- The assertions of `inode_hash_destroy`. -/
def inodeHashDestroy (T : InodeTable) : Bool :=
  (List.finRange inodeHashSize).all fun b => hlistEmpty b T.heap

/-- The loop of `inode_hash_find` from a node on. -/
def findFrom (T : InodeTable) (nr : ℕ) : ℕ → Option Ptr → Option (Option Ptr)
  | 0, _ => none
  | _+1, none => some none
  | n+1, some p => do
    let c ← T.cells p
    if c.iNr = nr then return some p
    else findFrom T nr n (T.heap.slot (.next p))

def inodeHashFind (T : InodeTable) (nr n : ℕ) : Option (Option Ptr) :=
  findFrom T nr n (T.heap.slot (.first (inodeHashfn nr)))

def inodeHashInsert (p : Ptr) (nr : ℕ) (h : Heap (Fin inodeHashSize) Ptr) :
    Heap (Fin inodeHashSize) Ptr :=
  hlistAddHead p (inodeHashfn nr) (initHlistNode p h)

def inodeHashRemove (p : Ptr) (h : Heap (Fin inodeHashSize) Ptr) :
    Option (Heap (Fin inodeHashSize) Ptr) := hlistDel p h

def setCell (T : InodeTable) (p : Ptr) (c : Option Cell) : InodeTable :=
  { T with cells := Function.update T.cells p c }

/-- `testfs_get_inode`, with the inode that the disk has and the address that `calloc` returns. -/
def getInode (T : InodeTable) (nr : ℕ) (loaded : Inode) (fresh : Ptr) (n : ℕ) :
    Option (Ptr × InodeTable) := do
  match ← inodeHashFind T nr n with
  | some p => do
    let c ← T.cells p
    return (p,setCell T p (some { c with inode := { c.inode with iCount := c.inode.iCount + 1 } }))
  | none =>
    let T := setCell T fresh (some ⟨nr,loaded⟩)
    return (fresh,{ T with heap := inodeHashInsert fresh nr T.heap })

/-- `testfs_put_inode`. -/
def putInode (T : InodeTable) (p : Ptr) : Option InodeTable := do
  let c ← T.cells p
  guard (c.inode.dirty = false)
  if c.inode.iCount - 1 = 0 then do
    let h ← inodeHashRemove p T.heap
    return setCell { T with heap := h } p none
  else
    return setCell T p (some { c with inode := { c.inode with iCount := c.inode.iCount - 1 } })

/-- An assignment to fields of the inode. -/
def storeInode (T : InodeTable) (p : Ptr) (inode : Inode) : Option InodeTable := do
  let c ← T.cells p
  return setCell T p (some { c with inode })

/-! ## The map -/

inductive TableAction
  | get (nr : ℕ) (loaded : Inode)
  | put (nr : ℕ)
  | store (nr : ℕ) (inode : Inode)

/-- What the actions are in the model of the file system. -/
def mapStep (m : ℕ → Option Inode) : TableAction → Option (ℕ → Option Inode)
  | .get nr loaded =>
    match m nr with
    | some inode => some (Function.update m nr (some { inode with iCount := inode.iCount + 1 }))
    | none => some (Function.update m nr (some loaded))
  | .put nr => do
    let inode ← m nr
    guard (inode.dirty = false)
    if inode.iCount - 1 = 0 then return Function.update m nr none
    else return Function.update m nr (some { inode with iCount := inode.iCount - 1 })
  | .store nr inode => do
    let _ ← m nr
    return Function.update m nr (some inode)

/-- The actions on the table; the pointers are those of inodes with these numbers, and a new
inode has an address that is not in use. -/
inductive TableStep (T : InodeTable) : TableAction → InodeTable → Prop
  | get {nr : ℕ} {loaded : Inode} {fresh p : Ptr} {n : ℕ} {T' : InodeTable}
      (hfresh : T.cells fresh = none) (h : getInode T nr loaded fresh n = some (p,T')) :
      TableStep T (.get nr loaded) T'
  | put {p : Ptr} {c : Cell} {T' : InodeTable} (hc : T.cells p = some c)
      (h : putInode T p = some T') : TableStep T (.put c.iNr) T'
  | store {p : Ptr} {c : Cell} {inode : Inode} {T' : InodeTable} (hc : T.cells p = some c)
      (h : storeInode T p inode = some T') : TableStep T (.store c.iNr inode) T'

/-- A table after these actions. -/
inductive TableRun (T : InodeTable) : List TableAction → InodeTable → Prop
  | nil : TableRun T [] T
  | step {U V : InodeTable} {as : List TableAction} {a : TableAction} (h : TableRun T as U)
      (hs : TableStep U a V) : TableRun T (as ++ [a]) V

/-- The cells of the table are the inodes of the map, each in the list of its hash value. -/
structure Represents (T : InodeTable) (m : ℕ → Option Inode) : Prop where
  lists : ∃ ls, Holds T.heap ls ∧
    ∀ b p, p ∈ ls b ↔ ∃ c, T.cells p = some c ∧ inodeHashfn c.iNr = b
  distinct : ∀ p q c d, T.cells p = some c → T.cells q = some d → c.iNr = d.iNr → p = q
  finite : {p | T.cells p ≠ none}.Finite
  map : ∀ nr inode, m nr = some inode ↔ ∃ p, T.cells p = some ⟨nr,inode⟩

section Lists

variable {T T' : InodeTable} {m m' : ℕ → Option Inode} {nr n : ℕ} {p q : Ptr} {c : Cell}
  {k : Loc (Fin inodeHashSize) Ptr} {l : List Ptr}

@[simp] theorem cells_setCell (T : InodeTable) (p q : Ptr) (c : Option Cell) :
    (setCell T p c).cells q = if q = p then c else T.cells q := Function.update_apply ..

@[simp] theorem heap_setCell (T : InodeTable) (p : Ptr) (c : Option Cell) :
    (setCell T p c).heap = T.heap := rfl

theorem slot_foldl_init (l : List (Fin inodeHashSize)) (h : Heap (Fin inodeHashSize) Ptr)
    (b : Fin inodeHashSize) :
    (l.foldl (fun h b => initHlistHead b h) h).slot (.first b) =
      if b ∈ l then none else h.slot (.first b) := by
  induction l generalizing h with
  | nil => rfl
  | cons x xs ih =>
    rw [List.foldl_cons,ih]
    by_cases hx : b = x <;> by_cases hxs : b ∈ xs <;> simp [initHlistHead,hx,hxs]

theorem represents_init (h : Heap (Fin inodeHashSize) Ptr) :
    Represents (inodeHashInit h) fun _ => none := by
  refine ⟨⟨fun _ => [],⟨fun b => ?_,by simp,by simp⟩,by simp [inodeHashInit]⟩,?_,?_,?_⟩
  · show (inodeHashInit h).heap.slot (.first b) = none
    rw [inodeHashInit,slot_foldl_init,if_pos (List.mem_finRange b)]
  · rintro p q c d hc
    cases hc
  · simp [inodeHashInit]
  · simp [inodeHashInit]

/-- What the loop returns is the inode with the number, if the list has one. -/
theorem findFrom_sound (hl : Linked T.heap k l) {r : Option Ptr}
    (h : findFrom T nr n (T.heap.slot k) = some r) :
    match r with
    | none => ∀ p ∈ l, ∀ c, T.cells p = some c → c.iNr ≠ nr
    | some p => p ∈ l ∧ ∃ c, T.cells p = some c ∧ c.iNr = nr := by
  induction n generalizing k l with
  | zero => cases h
  | succ n ih =>
    cases l with
    | nil =>
      rw [show T.heap.slot k = none from hl,findFrom,Option.some.injEq] at h
      subst h
      simp
    | cons x xs =>
      obtain ⟨h1,-,h3⟩ := hl
      rw [h1,findFrom] at h
      obtain ⟨c,hc,h⟩ := Option.bind_eq_some_iff.mp h
      by_cases hnr : c.iNr = nr
      · rw [if_pos hnr] at h
        cases h
        exact ⟨.head _,c,hc,hnr⟩
      · rw [if_neg hnr] at h
        have hrest := ih h3 h
        cases r with
        | none =>
          intro p hp d hd
          rcases List.mem_cons.mp hp with rfl | hp
          · rwa [Option.some.inj (hc.symm.trans hd)] at hnr
          · exact hrest p hp d hd
        | some p => exact ⟨.tail _ hrest.1,hrest.2⟩

/-- The loop comes to the end of the list. -/
theorem findFrom_isSome (hl : Linked T.heap k l) (hcells : ∀ p ∈ l, T.cells p ≠ none)
    (hn : l.length < n) : (findFrom T nr n (T.heap.slot k)).isSome = true := by
  induction n generalizing k l with
  | zero => omega
  | succ n ih =>
    cases l with
    | nil =>
      rw [show T.heap.slot k = none from hl]
      rfl
    | cons x xs =>
      obtain ⟨h1,-,h3⟩ := hl
      obtain ⟨c,hc⟩ := Option.ne_none_iff_exists'.mp (hcells x (.head _))
      rw [h1,findFrom,hc]
      show (if c.iNr = nr then some (some x) else findFrom T nr n (T.heap.slot (.next x))).isSome = true
      split
      · rfl
      · rw [List.length_cons] at hn
        exact ih h3 (fun p hp => hcells p (.tail _ hp)) (by omega)

end Lists

/-! ## The table is the map -/

section Refinement

variable {T T' : InodeTable} {m m' : ℕ → Option Inode} {nr n : ℕ} {p q : Ptr} {c : Cell}

theorem Represents.map_of_cell (h : Represents T m) (hc : T.cells p = some c) :
    m c.iNr = some c.inode := (h.map _ _).mpr ⟨p,hc⟩

/-- `inode_hash_find` looks the number up in the map. -/
theorem Represents.find_sound (h : Represents T m) {r : Option Ptr}
    (hr : inodeHashFind T nr n = some r) :
    match r with
    | none => m nr = none
    | some p => ∃ x, T.cells p = some ⟨nr,x⟩ ∧ m nr = some x := by
  obtain ⟨ls,hls,hmem⟩ := h.lists
  have hfound := findFrom_sound (hls.linked _) hr
  cases r with
  | none =>
    by_contra hm
    obtain ⟨x,hx⟩ := Option.ne_none_iff_exists'.mp hm
    obtain ⟨p,hp⟩ := (h.map _ _).mp hx
    exact hfound p ((hmem _ _).mpr ⟨_,hp,rfl⟩) _ hp rfl
  | some p =>
    obtain ⟨-,c,hc,rfl⟩ := hfound
    exact ⟨c.inode,hc,h.map_of_cell hc⟩

theorem Represents.find_returns (h : Represents T m) (nr : ℕ) :
    ∃ k, ∀ n ≥ k, ∃ r, inodeHashFind T nr n = some r := by
  obtain ⟨ls,hls,hmem⟩ := h.lists
  refine ⟨(ls (inodeHashfn nr)).length + 1,fun n hn => Option.isSome_iff_exists.mp ?_⟩
  refine findFrom_isSome (hls.linked _) (fun p hp => ?_) hn
  obtain ⟨c,hc,-⟩ := (hmem _ _).mp hp
  rw [hc]
  simp

theorem Represents.set (h : Represents T m) (hc : T.cells p = some c) (x : Inode) :
    Represents (setCell T p (some { c with inode := x })) (Function.update m c.iNr (some x)) := by
  have hcells : ∀ {q d}, (setCell T p (some { c with inode := x })).cells q = some d →
      ∃ e, T.cells q = some e ∧ e.iNr = d.iNr ∧ (q ≠ p → e = d) := by
    intro q d hd
    rw [cells_setCell] at hd
    by_cases hq : q = p
    · rw [if_pos hq,Option.some.injEq] at hd
      subst hd
      exact ⟨c,hq ▸ hc,rfl,fun hne => absurd hq hne⟩
    · rw [if_neg hq] at hd
      exact ⟨d,hd,rfl,fun _ => rfl⟩
  obtain ⟨ls,hls,hmem⟩ := h.lists
  refine ⟨⟨ls,hls,fun b q => ?_⟩,?_,?_,fun nr y => ?_⟩
  · rw [hmem]
    constructor
    · rintro ⟨e,he,rfl⟩
      by_cases hq : q = p
      · subst hq
        obtain rfl := Option.some.inj (hc.symm.trans he)
        exact ⟨{ c with inode := x },by rw [cells_setCell,if_pos rfl],rfl⟩
      · exact ⟨e,by rw [cells_setCell,if_neg hq,he],rfl⟩
    · rintro ⟨d,hd,rfl⟩
      obtain ⟨e,he,hnr,-⟩ := hcells hd
      exact ⟨e,he,by rw [hnr]⟩
  · intro q r d e hd he hnr
    obtain ⟨d',hd',h1,-⟩ := hcells hd
    obtain ⟨e',he',h2,-⟩ := hcells he
    exact h.distinct q r d' e' hd' he' (by rw [h1,h2,hnr])
  · refine h.finite.subset fun q hq => ?_
    obtain ⟨d,hd⟩ := Option.ne_none_iff_exists'.mp hq
    obtain ⟨e,he,-⟩ := hcells hd
    show T.cells q ≠ none
    rw [he]
    simp
  · by_cases hnr : nr = c.iNr
    · subst hnr
      rw [Function.update_self,Option.some.injEq]
      constructor
      · rintro rfl
        exact ⟨p,by rw [cells_setCell,if_pos rfl]⟩
      · rintro ⟨q,hq⟩
        obtain ⟨e,he,hnr,-⟩ := hcells hq
        rw [h.distinct q p e c he hc hnr,cells_setCell,if_pos rfl] at hq
        exact congrArg Cell.inode (Option.some.inj hq)
    · rw [Function.update_of_ne hnr,h.map]
      refine exists_congr fun q => ?_
      rw [cells_setCell]
      by_cases hq : q = p
      · subst hq
        rw [if_pos rfl,hc,Option.some.injEq,Option.some.injEq]
        constructor
        · rintro rfl
          exact absurd rfl hnr
        · intro hcell
          exact absurd (congrArg Cell.iNr hcell).symm hnr
      · rw [if_neg hq]

theorem Represents.insert (h : Represents T m) (hp : T.cells p = none) (hnr : m nr = none)
    (x : Inode) : Represents
      { setCell T p (some ⟨nr,x⟩) with heap := inodeHashInsert p nr T.heap }
      (Function.update m nr (some x)) := by
  obtain ⟨ls,hls,hmem⟩ := h.lists
  have hnot : ∀ b, p ∉ ls b := by
    intro b hb
    obtain ⟨c,hc,-⟩ := (hmem b p).mp hb
    rw [hp] at hc
    cases hc
  -- the links of a node that is in no list do not matter
  have hinit : Holds (initHlistNode p T.heap) ls := by
    refine ⟨fun b => (hls.linked b).congr (by simp) (fun q hq => ?_) fun q hq => ?_,hls.nodup,
      hls.disjoint⟩
    · have hne : q ≠ p := fun hc => hnot b (hc ▸ hq)
      simp [hne]
    · have hne : q ≠ p := fun hc => hnot b (hc ▸ hq)
      simp [hne]
  refine ⟨⟨_,hinit.addHead hnot,fun b q => ?_⟩,?_,?_,fun y z => ?_⟩
  · show _ ↔ ∃ c, (setCell T p (some ⟨nr,x⟩)).cells q = some c ∧ _
    rw [cells_setCell]
    by_cases hq : q = p
    · subst hq
      rw [if_pos rfl]
      by_cases hb : b = inodeHashfn nr
      · subst hb
        simp
      · simp [Function.update_of_ne hb,hnot,Ne.symm hb]
    · rw [if_neg hq,← hmem]
      by_cases hb : b = inodeHashfn nr
      · subst hb
        simp [hq]
      · rw [Function.update_of_ne hb]
  · show ∀ q r c d, (setCell T p (some ⟨nr,x⟩)).cells q = some c →
      (setCell T p (some ⟨nr,x⟩)).cells r = some d → _
    have hother : ∀ {q d}, T.cells q = some d → d.iNr ≠ nr := by
      rintro q d hd rfl
      rw [h.map_of_cell hd] at hnr
      cases hnr
    intro q r c d hc hd he
    rw [cells_setCell] at hc hd
    by_cases hq : q = p <;> by_cases hr : r = p
    · rw [hq,hr]
    · rw [if_pos hq,Option.some.injEq] at hc
      rw [if_neg hr] at hd
      exact absurd (he.symm.trans (congrArg Cell.iNr hc.symm)) (hother hd)
    · rw [if_neg hq] at hc
      rw [if_pos hr,Option.some.injEq] at hd
      exact absurd (he.trans (congrArg Cell.iNr hd.symm)) (hother hc)
    · rw [if_neg hq] at hc
      rw [if_neg hr] at hd
      exact h.distinct q r c d hc hd he
  · refine (h.finite.insert p).subset fun q hq => ?_
    have hq' : (setCell T p (some ⟨nr,x⟩)).cells q ≠ none := hq
    rw [cells_setCell] at hq'
    by_cases hqp : q = p
    · exact .inl hqp
    · rw [if_neg hqp] at hq'
      exact .inr hq'
  · show _ ↔ ∃ q, (setCell T p (some ⟨nr,x⟩)).cells q = some _
    by_cases hy : y = nr
    · subst hy
      rw [Function.update_self,Option.some.injEq]
      constructor
      · rintro rfl
        exact ⟨p,by rw [cells_setCell,if_pos rfl]⟩
      · rintro ⟨q,hq⟩
        rw [cells_setCell] at hq
        by_cases hqp : q = p
        · rw [if_pos hqp,Option.some.injEq] at hq
          exact congrArg Cell.inode hq
        · rw [if_neg hqp] at hq
          rw [h.map_of_cell hq] at hnr
          cases hnr
    · rw [Function.update_of_ne hy,h.map]
      constructor
      · rintro ⟨q,hq⟩
        have hqp : q ≠ p := by
          rintro rfl
          rw [hp] at hq
          cases hq
        exact ⟨q,by rw [cells_setCell,if_neg hqp,hq]⟩
      · rintro ⟨q,hq⟩
        rw [cells_setCell] at hq
        by_cases hqp : q = p
        · rw [if_pos hqp,Option.some.injEq] at hq
          exact absurd (congrArg Cell.iNr hq).symm hy
        · rw [if_neg hqp] at hq
          exact ⟨q,hq⟩

theorem Represents.remove (h : Represents T m) (hc : T.cells p = some c) :
    ∃ heap, inodeHashRemove p T.heap = some heap ∧
      Represents (setCell { T with heap } p none) (Function.update m c.iNr none) := by
  obtain ⟨ls,hls,hmem⟩ := h.lists
  have hp := (hmem _ p).mpr ⟨c,hc,rfl⟩
  obtain ⟨heap,hdel,hls'⟩ := hls.del hp
  refine ⟨heap,hdel,⟨_,hls',fun b q => ?_⟩,?_,?_,fun y z => ?_⟩
  · show _ ↔ ∃ d, (setCell T p none).cells q = some d ∧ _
    rw [cells_setCell]
    by_cases hq : q = p
    · subst hq
      rw [if_pos rfl]
      by_cases hb : b = inodeHashfn c.iNr
      · subst hb
        rw [Function.update_self]
        simp [(hls.nodup _).mem_erase_iff]
      · rw [Function.update_of_ne hb]
        constructor
        · intro hqb
          exact absurd (hls.disjoint _ _ _ hqb hp) hb
        · rintro ⟨d,hd,-⟩
          cases hd
    · rw [if_neg hq,← hmem]
      by_cases hb : b = inodeHashfn c.iNr
      · subst hb
        rw [Function.update_self,(hls.nodup _).mem_erase_iff]
        simp [hq]
      · rw [Function.update_of_ne hb]
  · show ∀ q r d e, (setCell T p none).cells q = some d → (setCell T p none).cells r = some e → _
    intro q r d e hd he hnr
    rw [cells_setCell] at hd he
    by_cases hq : q = p
    · rw [if_pos hq] at hd
      cases hd
    · by_cases hr : r = p
      · rw [if_pos hr] at he
        cases he
      · rw [if_neg hq] at hd
        rw [if_neg hr] at he
        exact h.distinct q r d e hd he hnr
  · refine h.finite.subset fun q hq => ?_
    have hq' : (setCell T p none).cells q ≠ none := hq
    rw [cells_setCell] at hq'
    by_cases hqp : q = p
    · rw [if_pos hqp] at hq'
      exact absurd rfl hq'
    · rwa [if_neg hqp] at hq'
  · show _ ↔ ∃ q, (setCell T p none).cells q = some _
    by_cases hy : y = c.iNr
    · subst hy
      rw [Function.update_self]
      constructor
      · rintro ⟨⟩
      · rintro ⟨q,hq⟩
        rw [cells_setCell] at hq
        by_cases hqp : q = p
        · rw [if_pos hqp] at hq
          cases hq
        · rw [if_neg hqp] at hq
          exact absurd (h.distinct q p _ c hq hc rfl) hqp
    · rw [Function.update_of_ne hy,h.map]
      refine exists_congr fun q => ?_
      rw [cells_setCell]
      by_cases hqp : q = p
      · subst hqp
        rw [if_pos rfl,hc,Option.some.injEq]
        constructor
        · rintro rfl
          exact absurd rfl hy
        · rintro ⟨⟩
      · rw [if_neg hqp]

theorem Represents.exists_fresh (h : Represents T m) : ∃ p, T.cells p = none := by
  obtain ⟨p,hp⟩ := h.finite.exists_notMem
  exact ⟨p,not_not.mp hp⟩

theorem Represents.step (h : Represents T m) {a : TableAction} (hs : TableStep T a T') :
    ∃ m', mapStep m a = some m' ∧ Represents T' m' := by
  cases hs with
  | get hfresh hget =>
    rename_i nr loaded fresh p n
    obtain ⟨r,hfind,hget⟩ := Option.bind_eq_some_iff.mp hget
    have hfound := h.find_sound hfind
    cases r with
    | some q =>
      obtain ⟨x,hq,hm⟩ := hfound
      obtain ⟨c,hc,hget⟩ := Option.bind_eq_some_iff.mp hget
      obtain rfl := Option.some.inj (hq.symm.trans hc)
      cases hget
      exact ⟨_,by simp only [mapStep,hm],h.set hq _⟩
    | none =>
      cases hget
      exact ⟨_,by simp only [mapStep,hfound],h.insert hfresh hfound loaded⟩
  | put hc hput =>
    rename_i p c
    obtain ⟨d,hd,hput⟩ := Option.bind_eq_some_iff.mp hput
    obtain rfl := Option.some.inj (hc.symm.trans hd)
    obtain ⟨u,hclean,hput⟩ := Option.bind_eq_some_iff.mp hput
    have hstep : mapStep m (.put c.iNr) = if c.inode.iCount - 1 = 0
        then some (Function.update m c.iNr none) else some (Function.update m c.iNr
          (some { c.inode with iCount := c.inode.iCount - 1 })) := by
      simp only [mapStep,h.map_of_cell hc,Option.bind_eq_bind,Option.bind_some]
      rw [hclean]
      rfl
    rw [hstep]
    by_cases hlast : c.inode.iCount - 1 = 0
    · rw [if_pos hlast] at hput ⊢
      obtain ⟨heap,hrem,hput⟩ := Option.bind_eq_some_iff.mp hput
      cases hput
      obtain ⟨heap',hrem',hrep⟩ := h.remove hc
      obtain rfl := Option.some.inj (hrem'.symm.trans hrem)
      exact ⟨_,rfl,hrep⟩
    · rw [if_neg hlast] at hput ⊢
      cases hput
      exact ⟨_,rfl,h.set hc _⟩
  | store hc hstore =>
    rename_i p c inode
    obtain ⟨d,hd,hstore⟩ := Option.bind_eq_some_iff.mp hstore
    obtain rfl := Option.some.inj (hc.symm.trans hd)
    cases hstore
    exact ⟨_,by simp only [mapStep,h.map_of_cell hc,Option.bind_eq_bind,Option.bind_some]; rfl,
      h.set hc inode⟩

/-- Every action on the map can be done on the table. -/
theorem Represents.enabled (h : Represents T m) {a : TableAction} (ha : mapStep m a = some m') :
    ∃ T', TableStep T a T' := by
  cases a with
  | get nr loaded =>
    obtain ⟨fresh,hfresh⟩ := h.exists_fresh
    obtain ⟨k,hk⟩ := h.find_returns nr
    obtain ⟨r,hr⟩ := hk k le_rfl
    have hfound := h.find_sound hr
    cases r with
    | none => exact ⟨_,.get hfresh (Option.bind_eq_some_iff.mpr ⟨none,hr,rfl⟩)⟩
    | some p =>
      obtain ⟨x,hp,-⟩ := hfound
      exact ⟨_,.get hfresh (Option.bind_eq_some_iff.mpr ⟨some p,hr,
        Option.bind_eq_some_iff.mpr ⟨_,hp,rfl⟩⟩)⟩
  | put nr =>
    obtain ⟨x,hx,ha⟩ := Option.bind_eq_some_iff.mp ha
    obtain ⟨u,hclean,-⟩ := Option.bind_eq_some_iff.mp ha
    obtain ⟨p,hp⟩ := (h.map _ _).mp hx
    by_cases hlast : x.iCount - 1 = 0
    · obtain ⟨heap,hrem,-⟩ := h.remove hp
      refine ⟨setCell { T with heap } p none,.put hp (Option.bind_eq_some_iff.mpr
        ⟨_,hp,Option.bind_eq_some_iff.mpr ⟨u,hclean,?_⟩⟩)⟩
      rw [if_pos hlast]
      exact Option.bind_eq_some_iff.mpr ⟨heap,hrem,rfl⟩
    · refine ⟨setCell T p (some ⟨nr,{ x with iCount := x.iCount - 1 }⟩),.put hp
        (Option.bind_eq_some_iff.mpr ⟨_,hp,Option.bind_eq_some_iff.mpr ⟨u,hclean,?_⟩⟩)⟩
      rw [if_neg hlast]
      rfl
  | store nr inode =>
    obtain ⟨x,hx,-⟩ := Option.bind_eq_some_iff.mp ha
    obtain ⟨p,hp⟩ := (h.map _ _).mp hx
    exact ⟨_,.store hp (Option.bind_eq_some_iff.mpr ⟨_,hp,rfl⟩)⟩

/-- The lists are all empty exactly when no inode is held. -/
theorem Represents.destroy_iff (h : Represents T m) :
    inodeHashDestroy T = true ↔ ∀ nr, m nr = none := by
  obtain ⟨ls,hls,hmem⟩ := h.lists
  have hempty : ∀ b, hlistEmpty b T.heap = true ↔ ls b = [] := by
    intro b
    have hl := hls.linked b
    rw [hlistEmpty,Option.isNone_iff_eq_none]
    cases hb : ls b with
    | nil =>
      rw [hb] at hl
      exact iff_of_true hl rfl
    | cons x xs =>
      rw [hb] at hl
      rw [hl.1]
      simp
  rw [inodeHashDestroy,List.all_eq_true]
  constructor
  · intro hall nr
    by_contra hm
    obtain ⟨x,hx⟩ := Option.ne_none_iff_exists'.mp hm
    obtain ⟨p,hp⟩ := (h.map _ _).mp hx
    have hin := (hmem _ p).mpr ⟨_,hp,rfl⟩
    rw [(hempty _).mp (hall _ (List.mem_finRange _))] at hin
    cases hin
  · intro hnone b _
    refine (hempty b).mpr (List.eq_nil_iff_forall_not_mem.mpr fun p hp => ?_)
    obtain ⟨c,hc,-⟩ := (hmem b p).mp hp
    have hm := h.map_of_cell hc
    rw [hnone] at hm
    cases hm

theorem TableRun.represents {h : Heap (Fin inodeHashSize) Ptr} {as : List TableAction}
    (hr : TableRun (inodeHashInit h) as T) :
    ∃ m, exec mapStep as (fun _ => none) = some m ∧ Represents T m := by
  induction hr with
  | nil => exact ⟨_,rfl,represents_init h⟩
  | step _ hs ih =>
    obtain ⟨m,hm,hrep⟩ := ih
    obtain ⟨m',hm',hrep'⟩ := hrep.step hs
    exact ⟨m',exec_trans hm (Option.bind_eq_some_iff.mpr ⟨m',hm',rfl⟩),hrep'⟩

/-- Every run of the map can be done in the table. -/
theorem TableRun.exists {as : List TableAction} (h : Heap (Fin inodeHashSize) Ptr)
    (hm : (exec mapStep as fun _ => none).isSome = true) :
    ∃ T, TableRun (inodeHashInit h) as T := by
  induction as using List.reverseRecOn with
  | nil => exact ⟨_,.nil⟩
  | append_singleton as a ih =>
    obtain ⟨m,hm⟩ := Option.isSome_iff_exists.mp hm
    rw [exec_append] at hm
    obtain ⟨m₁,h1,h2⟩ := Option.bind_eq_some_iff.mp hm
    obtain ⟨T,hT⟩ := ih (by rw [h1]; rfl)
    obtain ⟨m₂,hm₂,hrep⟩ := hT.represents
    obtain rfl := Option.some.inj (h1.symm.trans hm₂)
    obtain ⟨m',ha,-⟩ := Option.bind_eq_some_iff.mp h2
    obtain ⟨T',hs⟩ := hrep.enabled ha
    exact ⟨T',.step hT hs⟩

end Refinement

/-! ## The functions of the file system -/

section FileSystem

variable {s : Testfs} {T : InodeTable}

theorem testfsGetInode_mapStep (i : ℕ) : Wlp (testfsGetInode i) s fun _ t =>
    ∃ d, mapStep s.inodes (.get i ⟨d,false,1⟩) = some t.inodes := by
  simp only [testfsGetInode,Wlp.bind_iff,Wlp.get_iff]
  cases hi : s.inodes i with
  | some inode => exact wlp_setInode.mpr ⟨Dinode.zero,by simp only [mapStep,hi]⟩
  | none =>
    simp only [testfsReadInodeBlock,Wlp.bind_iff,Wlp.guard_iff,Wlp.get_iff,wlp_readBlocks]
    intro _ _
    exact wlp_setInode.mpr ⟨_,by simp only [mapStep,hi]; rfl⟩

theorem testfsPutInode_mapStep (i : ℕ) : Wlp (testfsPutInode i) s fun _ t =>
    mapStep s.inodes (.put i) = some t.inodes := by
  simp only [testfsPutInode,Wlp.bind_iff,wlp_inodeOf,Wlp.guard_iff,Wlp.ite_iff]
  intro inode hi hclean
  refine ⟨fun hlast => Wlp.modify_iff.mpr ?_,fun hlast => wlp_setInode.mpr ?_⟩
  · simp [mapStep,hi,hclean,hlast]
  · simp [mapStep,hi,hclean,hlast]

/-- Assignments to the fields of an inode that is held. -/
theorem setInode_mapStep {i : ℕ} {old : Inode} (hi : s.inodes i = some old) (inode : Inode) :
    Wlp (setInode i inode) s fun _ t => mapStep s.inodes (.store i inode) = some t.inodes :=
  wlp_setInode.mpr (by simp [mapStep,hi])

/-- A function that does an action on the map can do it in the table. -/
theorem Represents.follow {α : Type} {x : FsM α} {P : TableAction → Prop}
    (h : Represents T s.inodes)
    (hx : Wlp x s fun _ t => ∃ a, P a ∧ mapStep s.inodes a = some t.inodes) :
    Wlp x s fun _ t => ∃ a T', P a ∧ TableStep T a T' ∧ Represents T' t.inodes := by
  refine hx.mono ?_
  rintro r t ⟨a,hP,ha⟩
  obtain ⟨T',hs⟩ := h.enabled ha
  obtain ⟨m',hm',hrep⟩ := h.step hs
  obtain rfl := Option.some.inj (hm'.symm.trans ha)
  exact ⟨a,T',hP,hs,hrep⟩

end FileSystem

/-- Every run of the table is a run of the map. Afterwards a number is found exactly when the map
has it, the table may be destroyed exactly when no inode is held, and the table can do what the
map can do. -/
theorem table_runs_as_map {h : Heap (Fin inodeHashSize) Ptr} {as : List TableAction}
    {T : InodeTable} (hr : TableRun (inodeHashInit h) as T) :
    ∃ m, exec mapStep as (fun _ => none) = some m ∧
      (∀ nr, ∃ k, ∀ n ≥ k, ∃ r, inodeHashFind T nr n = some r ∧
        match r with
        | none => m nr = none
        | some p => ∃ x, T.cells p = some ⟨nr,x⟩ ∧ m nr = some x) ∧
      (inodeHashDestroy T = true ↔ ∀ nr, m nr = none) ∧
      ∀ a, (∃ m', mapStep m a = some m') ↔ ∃ T', TableStep T a T' := by
  obtain ⟨m,hm,hrep⟩ := hr.represents
  refine ⟨m,hm,fun nr => ?_,hrep.destroy_iff,fun a => ⟨?_,?_⟩⟩
  · obtain ⟨k,hk⟩ := hrep.find_returns nr
    refine ⟨k,fun n hn => ?_⟩
    obtain ⟨r,hfind⟩ := hk n hn
    refine ⟨r,hfind,?_⟩
    have hfound := hrep.find_sound hfind
    cases r with
    | none => exact hfound
    | some p => exact hfound
  · rintro ⟨m',ha⟩
    exact hrep.enabled ha
  · rintro ⟨T',hs⟩
    obtain ⟨m',ha,-⟩ := hrep.step hs
    exact ⟨m',ha⟩

/-- Two inodes of one list are held, and the one behind the other is put. -/
theorem second_of_list_put : ∃ T, TableRun (inodeHashInit ⟨fun _ => none,fun _ => none⟩)
    [.get 0 ⟨Dinode.zero,false,1⟩,.get 233 ⟨Dinode.zero,false,1⟩,.put 0] T ∧
    inodeHashDestroy T = false ∧ ∃ p n, inodeHashFind T 233 n = some (some p) := by
  obtain ⟨T,hrun⟩ : ∃ T, TableRun (inodeHashInit ⟨fun _ => none,fun _ => none⟩)
      [.get 0 ⟨Dinode.zero,false,1⟩,.get 233 ⟨Dinode.zero,false,1⟩,.put 0] T :=
    TableRun.exists _ rfl
  obtain ⟨m,hm,hfind,hdestroy,-⟩ := table_runs_as_map hrun
  have hm233 : m 233 = some ⟨Dinode.zero,false,1⟩ := by
    obtain rfl := Option.some.inj hm
    rfl
  refine ⟨T,hrun,?_,?_⟩
  · rw [Bool.eq_false_iff,Ne,hdestroy]
    intro hnone
    rw [hnone] at hm233
    cases hm233
  · obtain ⟨k,hk⟩ := hfind 233
    obtain ⟨r,hr,hfound⟩ := hk k le_rfl
    cases r with
    | none =>
      rw [hm233] at hfound
      cases hfound
    | some p => exact ⟨p,k,hr⟩

end InodeHash
end OsLabs

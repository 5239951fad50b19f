import Mathlib.Data.BitVec
import Mathlib.Tactic
import OsLabs.Bytes
import OsLabs.Holdings
import OsLabs.FsModel
import OsLabs.DirModel
import OsLabs.FsVolume
import OsLabs.FsAccounts
import OsLabs.Dirents
import OsLabs.DirMap
import OsLabs.DirOps
import OsLabs.FsCreation
import OsLabs.RootedTree

/-!
# The tree of directories

`Tree v E` says that the directories of the volume have the entries `E`, and that their live
entries other than "." and ".." are the edges of a tree of the marked inodes, with "." and ".."
as they should be. Making a name grafts a leaf on this tree, removing one prunes a leaf.
-/

namespace OsLabs
namespace FsTree

open Bytes FsModel DirModel FsVolume FsAccounts FsRemoval Dirents DirMap DirOps FsCreation
open Holdings RootedTree

/-- A live entry of the directory `d` other than "." and ".." names the inode `i`. -/
def Edge (E : ℕ → List Entry) (d : ℕ) (n : CString) (i : ℕ) : Prop :=
  ∃ e ∈ E d, e.live = true ∧ n ≠ dot ∧ n ≠ dotdot ∧ e.name = n ∧ e.nr.toNat = i

abbrev Marked (v : Volume) (i : ℕ) : Prop := v.inodeUsed i = true

/-- The inode is a directory. -/
abbrev Directory (v : Volume) (i : ℕ) : Prop := (v.inode i).iType = InodeType.dir.code

structure Tree (v : Volume) (E : ℕ → List Entry) : Prop where
  isDir : ∀ d, Directory v d → IsDir v d (E d)
  notDir : ∀ d, ¬Directory v d → E d = []
  distinct : ∀ d, Distinct (E d)
  root : Directory v 0
  unmarked : ∀ i, ¬Marked v i → v.inode i = Dinode.zero
  bound : ∀ i, Marked v i → i < nrInodes
  count : v.usedInodes.toNat = held (Finset.range nrInodes) false v.inodeUsed
  isTree : IsTree 0 (Marked v) (Edge E)
  dot_entry : ∀ d, Directory v d → lookup dot (E d) = some ⟨BitVec.ofNat 32 d,dot⟩
  dotdot_root : lookup dotdot (E 0) = some ⟨0,dotdot⟩
  dotdot_entry : ∀ d n i, Edge E d n i → Directory v i →
    lookup dotdot (E i) = some ⟨BitVec.ofNat 32 d,dotdot⟩

section Facts

variable {v w : Volume} {E : ℕ → List Entry} {d i : ℕ} {n name : CString}

theorem edge_iff (hd : Distinct (E d)) :
    Edge E d n i ↔ n ≠ dot ∧ n ≠ dotdot ∧ ∃ e, lookup n (E d) = some e ∧ e.nr.toNat = i := by
  constructor
  · rintro ⟨e,he,hl,h1,h2,hn,hi⟩
    exact ⟨h1,h2,e,(lookup_eq_some_iff hd).mpr ⟨he,hl,hn⟩,hi⟩
  · rintro ⟨h1,h2,e,he,hi⟩
    obtain ⟨hm,hl,hn⟩ := lookup_some he
    exact ⟨e,hm,hl,h1,h2,hn,hi⟩

theorem toNat_ofNat_inode (hi : i < nrInodes) : (BitVec.ofNat 32 i).toNat = i := by
  rw [BitVec.toNat_ofNat]
  simp only [nrInodes] at hi
  omega

theorem live_ofNat_inode (hi : i < nrInodes) (n : CString) :
    (⟨BitVec.ofNat 32 i,n⟩ : Entry).live = true := by
  have h := toNat_ofNat_inode hi
  simp only [nrInodes] at hi
  refine decide_eq_true ?_
  rw [BitVec.toInt_eq_toNat_of_lt (by rw [h]; omega)]
  exact Int.natCast_nonneg _

theorem Tree.marked_of_directory (h : Tree v E) (hd : Directory v d) : Marked v d := by
  by_contra hu
  rw [Directory,h.unmarked d hu] at hd
  exact absurd hd (by decide)

theorem Tree.lt_of_directory (h : Tree v E) (hd : Directory v d) : d < nrInodes :=
  h.bound d (h.marked_of_directory hd)

theorem Tree.directory_of_mem (h : Tree v E) {e : Entry} (he : e ∈ E d) : Directory v d := by
  by_contra hd
  rw [h.notDir d hd] at he
  cases he

/-- A directory other than the root has an entry in the directory that ".." names. -/
theorem Tree.exists_parent (h : Tree v E) (hi : Marked v i) (h0 : i ≠ 0) : ∃ d n, Edge E d n i :=
  ((h.isTree.covered i).mp hi).resolve_left h0

theorem held_marked_le (v : Volume) :
    held (Finset.range nrInodes) false v.inodeUsed ≤ nrInodes := by
  have h := held_le_card (Finset.range nrInodes) false v.inodeUsed
  rwa [Finset.card_range] at h

/-- ".." names the directory that holds the entry, or the root itself. -/
theorem Tree.exists_lookup_dotdot (h : Tree v E) (hd : Directory v d) :
    ∃ p, lookup dotdot (E d) = some ⟨BitVec.ofNat 32 p,dotdot⟩ ∧
      ((d = 0 ∧ p = 0) ∨ ∃ n, Edge E p n d) := by
  by_cases h0 : d = 0
  · subst h0
    exact ⟨0,h.dotdot_root,Or.inl ⟨rfl,rfl⟩⟩
  · obtain ⟨p,n,hp⟩ := h.exists_parent (h.marked_of_directory hd) h0
    exact ⟨p,h.dotdot_entry p n d hp hd,Or.inr ⟨n,hp⟩⟩

theorem Tree.ne_dots (h : Tree v E) (hd : Directory v d) (hnew : lookup name (E d) = none) :
    name ≠ dot ∧ name ≠ dotdot := by
  constructor
  · rintro rfl
    rw [h.dot_entry d hd] at hnew
    cases hnew
  · rintro rfl
    obtain ⟨p,hp,-⟩ := h.exists_lookup_dotdot hd
    rw [hp] at hnew
    cases hnew

end Facts

/-! ## Making a name -/

section Making

variable {v w : Volume} {E : ℕ → List Entry} {d i : ℕ} {name : CString} {type : InodeType}

/-- The entries of a new inode. -/
def newEntries (type : InodeType) (d i : ℕ) : List Entry :=
  if type = .dir then [⟨BitVec.ofNat 32 i,dot⟩,⟨BitVec.ofNat 32 d,dotdot⟩] else []

def madeEntries (E : ℕ → List Entry) (d : ℕ) (name : CString) (type : InodeType) (i : ℕ) :
    ℕ → List Entry :=
  Function.update (Function.update E d (addEntry ⟨BitVec.ofNat 32 i,name⟩ (E d))) i
    (newEntries type d i)

theorem madeEntries_self (E : ℕ → List Entry) (d i : ℕ) (name : CString) (type : InodeType) :
    madeEntries E d name type i i = newEntries type d i := Function.update_self ..

theorem madeEntries_parent (E : ℕ → List Entry) (name : CString) (type : InodeType) (h : d ≠ i) :
    madeEntries E d name type i d = addEntry ⟨BitVec.ofNat 32 i,name⟩ (E d) := by
  rw [madeEntries,Function.update_of_ne h,Function.update_self]

theorem madeEntries_other (E : ℕ → List Entry) (name : CString) (type : InodeType) {x : ℕ}
    (hd : x ≠ d) (hi : x ≠ i) : madeEntries E d name type i x = E x := by
  rw [madeEntries,Function.update_of_ne hi,Function.update_of_ne hd]

theorem edge_newEntries (hE : E i = newEntries type d i) (n : CString) (x : ℕ) :
    ¬Edge E i n x := by
  rintro ⟨e,he,-,h1,h2,hn,-⟩
  rw [hE,newEntries] at he
  split at he
  · rcases List.mem_cons.mp he with rfl | he
    · exact h1 hn.symm
    · rw [List.mem_singleton.mp he] at hn
      exact h2 hn.symm
  · cases he

theorem edge_madeEntries (h : Tree v E) (hd : Directory v d) (hi : ¬Marked v i)
    (hlt : i < nrInodes) (hnew : lookup name (E d) = none) (a : ℕ) (m : CString) (x : ℕ) :
    Edge (madeEntries E d name type i) a m x ↔ Edge E a m x ∨ (a = d ∧ m = name ∧ x = i) := by
  have hdi : d ≠ i := by
    rintro rfl
    exact hi (h.marked_of_directory hd)
  have hnr := toNat_ofNat_inode hlt
  have hlive := live_ofNat_inode hlt name
  obtain ⟨h1,h2⟩ := h.ne_dots hd hnew
  by_cases hai : a = i
  · subst hai
    constructor
    · intro he
      exact absurd he (edge_newEntries (madeEntries_self ..) m x)
    · rintro (he | ⟨rfl,-,-⟩)
      · exact absurd (h.isTree.source a m x he) hi
      · exact absurd rfl hdi
  · by_cases had : a = d
    · subst had
      simp only [Edge,madeEntries_parent E name type hdi]
      constructor
      · rintro ⟨e,he,hl,hm1,hm2,hn,hx⟩
        rcases (mem_addEntry_live hlive).mp ⟨he,hl⟩ with rfl | ⟨he,hl⟩
        · exact Or.inr ⟨trivial,hn.symm,hx.symm.trans hnr⟩
        · exact Or.inl ⟨e,he,hl,hm1,hm2,hn,hx⟩
      · rintro (⟨e,he,hl,hm1,hm2,hn,hx⟩ | ⟨-,rfl,rfl⟩)
        · have hmem := (mem_addEntry_live hlive).mpr (Or.inr (⟨he,hl⟩ : e ∈ E a ∧ e.live = true))
          exact ⟨e,hmem.1,hl,hm1,hm2,hn,hx⟩
        · exact ⟨_,mem_addEntry_self hlive (E a),hlive,h1,h2,rfl,hnr⟩
    · simp only [Edge,madeEntries_other E name type had hai,had,false_and,or_false]

/-- The new inode is not the directory. -/
theorem ne_of_made {es : List Entry} (h : Tree v E) (hd : Directory v d)
    (hm : Made d es name type i v w) : d ≠ i := by
  rintro rfl
  have hmark := h.marked_of_directory hd
  rw [Marked,hm.unused] at hmark
  cases hmark

/-- A new name grafts a leaf on the tree. -/
theorem Tree.make (h : Tree v E) (hd : Directory v d) (hnew : lookup name (E d) = none)
    (hm : Made d (E d) name type i v w) : Tree w (madeEntries E d name type i) := by
  have hi : ¬Marked v i := by
    rw [Marked,hm.unused]
    simp
  have hdi := ne_of_made h hd hm
  have hEi : E i = [] := h.notDir i fun hc => hi (h.marked_of_directory hc)
  have hlive := live_ofNat_inode hm.lt name
  obtain ⟨hdot,hdotdot⟩ := h.ne_dots hd hnew
  have hfile : type ≠ .dir → ¬Directory w i := by
    intro ht hc
    rw [Directory,hm.file ht] at hc
    cases type <;> first | exact ht rfl | exact absurd hc (by decide)
  have hmarked : ∀ x, Marked w x ↔ x = i ∨ Marked v x := by
    intro x
    rw [Marked,hm.inodeUsed]
    by_cases hx : x = i
    · simp [hx]
    · simp [hx]
  -- names other than the new one are looked up as before
  have hlook : ∀ x, x ≠ i → ∀ n, n ≠ name →
      lookup n (madeEntries E d name type i x) = lookup n (E x) := by
    intro x hx n hn
    by_cases hxd : x = d
    · subst hxd
      rw [madeEntries_parent E name type hdi,lookup_addEntry (h.distinct x) hlive hnew,if_neg hn]
    · rw [madeEntries_other E name type hxd hx]
  have hdir : ∀ x, x ≠ i → Directory w x → Directory v x := by
    intro x hx hc
    by_cases hxd : x = d
    · rwa [hxd]
    · rwa [Directory,hm.inode x hxd hx] at hc
  have hnewdir : type = .dir → newEntries type d i =
      [⟨BitVec.ofNat 32 i,dot⟩,⟨BitVec.ofNat 32 d,dotdot⟩] := fun ht => if_pos ht
  refine ⟨?_,?_,?_,?_,?_,?_,?_,?_,?_,?_,?_⟩
  · intro x hx
    by_cases hxi : x = i
    · subst hxi
      by_cases ht : type = .dir
      · rw [madeEntries_self,hnewdir ht]
        exact hm.dir ht
      · exact absurd hx (hfile ht)
    · by_cases hxd : x = d
      · subst hxd
        rw [madeEntries_parent E name type hdi]
        exact hm.isDir
      · rw [madeEntries_other E name type hxd hxi]
        exact isDir_congr (h.isDir x (hdir x hxi hx)) (hm.inode x hxd hxi) (hm.logical x hxd hxi)
  · intro x hx
    by_cases hxi : x = i
    · subst hxi
      have ht : type ≠ .dir := fun ht => hx (hm.dir ht).iType
      rw [madeEntries_self,newEntries,if_neg ht]
    · by_cases hxd : x = d
      · exact absurd (hxd ▸ hm.isDir.iType) hx
      · rw [madeEntries_other E name type hxd hxi]
        refine h.notDir x fun hc => hx ?_
        rwa [Directory,hm.inode x hxd hxi]
  · intro x
    by_cases hxi : x = i
    · subst hxi
      rw [madeEntries_self,newEntries]
      split
      · exact List.pairwise_pair.mpr fun _ _ => (by decide : dot ≠ dotdot)
      · exact List.Pairwise.nil
    · by_cases hxd : x = d
      · subst hxd
        rw [madeEntries_parent E name type hdi]
        exact (h.distinct x).addEntry hnew
      · rw [madeEntries_other E name type hxd hxi]
        exact h.distinct x
  · by_cases h0 : 0 = d
    · exact h0 ▸ hm.isDir.iType
    · have h0i : 0 ≠ i := fun hc => hi (hc ▸ h.isTree.node_root)
      rw [Directory,hm.inode 0 h0 h0i]
      exact h.root
  · intro x hx
    rw [hmarked,not_or] at hx
    have hxd : x ≠ d := fun hc => hx.2 (hc ▸ h.marked_of_directory hd)
    rw [hm.inode x hxd hx.1]
    exact h.unmarked x hx.2
  · intro x hx
    rcases (hmarked x).mp hx with rfl | hx
    · exact hm.lt
    · exact h.bound x hx
  · have hle := held_marked_le v
    simp only [nrInodes] at hle
    have hc := h.count
    simp only [nrInodes] at hc
    rw [hm.usedInodes,hm.inodeUsed,held_update_of_eq (Finset.mem_range.mpr hm.lt) hm.unused (by simp),
      toNat_add_one _ (by omega),h.count]
  · exact h.isTree.graft (h.marked_of_directory hd) hi
      (fun j he => by
        obtain ⟨-,-,e,he,-⟩ := (edge_iff (h.distinct d)).mp he
        rw [hnew] at he
        cases he)
      hmarked (edge_madeEntries h hd hi hm.lt hnew)
  · intro x hx
    by_cases hxi : x = i
    · subst hxi
      have ht : type = .dir := by
        by_contra ht
        exact hfile ht hx
      rw [madeEntries_self,hnewdir ht,lookup,List.find?_cons_of_pos]
      exact isNamed_iff.mpr ⟨live_ofNat_inode hm.lt _,rfl⟩
    · rw [hlook x hxi _ hdot.symm]
      exact h.dot_entry x (hdir x hxi hx)
  · rw [hlook 0 (fun hc => hi (hc ▸ h.isTree.node_root)) _ hdotdot.symm]
    exact h.dotdot_root
  · intro a m x he hx
    rcases (edge_madeEntries h hd hi hm.lt hnew a m x).mp he with he | ⟨rfl,rfl,rfl⟩
    · have hxi : x ≠ i := fun hc => hi (hc ▸ h.isTree.node_of_edge he)
      rw [hlook x hxi _ hdotdot.symm]
      exact h.dotdot_entry a m x he (hdir x hxi hx)
    · have ht : type = .dir := by
        by_contra ht
        exact hfile ht hx
      have hdlt := h.lt_of_directory hd
      rw [madeEntries_self,hnewdir ht,lookup,List.find?_cons_of_neg,List.find?_cons_of_pos]
      · exact isNamed_iff.mpr ⟨live_ofNat_inode hdlt _,rfl⟩
      · rw [isNamed_iff]
        exact fun hc => absurd hc.2 (by decide : dot ≠ dotdot)

end Making

/-! ## Removing a name -/

section Removing

variable {v w : Volume} {E : ℕ → List Entry} {d i : ℕ} {name : CString}

/-- The inode `i` is gone, with its name in the directory `d` whose entries were `es`. -/
structure Unmade (d : ℕ) (es : List Entry) (name : CString) (i : ℕ) (v w : Volume) : Prop where
  inodeUsed : w.inodeUsed = Function.update v.inodeUsed i false
  usedInodes : w.usedInodes = v.usedInodes - 1
  maxBlocks : w.maxBlocks = v.maxBlocks
  self : w.inode i = Dinode.zero
  inode : ∀ j, j ≠ d → j ≠ i → w.inode j = v.inode j
  logical : ∀ j, j ≠ d → j ≠ i → logical w j = logical v j
  isDir : IsDir w d (killEntry name es)
  disk : w.disk = w.inode

def unmadeEntries (E : ℕ → List Entry) (d : ℕ) (name : CString) (i : ℕ) : ℕ → List Entry :=
  Function.update (Function.update E d (killEntry name (E d))) i []

theorem unmadeEntries_parent (E : ℕ → List Entry) (name : CString) (h : d ≠ i) :
    unmadeEntries E d name i d = killEntry name (E d) := by
  rw [unmadeEntries,Function.update_of_ne h,Function.update_self]

theorem unmadeEntries_other (E : ℕ → List Entry) (name : CString) {x : ℕ} (hd : x ≠ d)
    (hi : x ≠ i) : unmadeEntries E d name i x = E x := by
  rw [unmadeEntries,Function.update_of_ne hi,Function.update_of_ne hd]

/-- An inode that can be removed has no edges. -/
theorem Tree.leaf_of_removable (h : Tree v E) (hr : Removable v i (E i)) (n : CString) (x : ℕ) :
    ¬Edge E i n x := by
  rintro ⟨e,he,hl,h1,h2,rfl,-⟩
  have hc := hr (h.directory_of_mem he) e he
  rw [Entry.isChild,hl,Bool.true_and,decide_eq_false_iff_not] at hc
  exact hc ⟨h1,h2⟩

theorem edge_unmadeEntries (h : Tree v E) (hi : Edge E d name i) (hleaf : ∀ n x, ¬Edge E i n x)
    (a : ℕ) (m : CString) (x : ℕ) :
    Edge (unmadeEntries E d name i) a m x ↔ Edge E a m x ∧ x ≠ i := by
  have hdi : d ≠ i := h.isTree.ne_of_edge hi
  have hname : Edge E a m x → (x = i ↔ a = d ∧ m = name) := by
    intro he
    constructor
    · rintro rfl
      exact h.isTree.unique a m d name x he hi
    · rintro ⟨rfl,rfl⟩
      exact h.isTree.functional a m x i he hi
  by_cases hai : a = i
  · subst hai
    constructor
    · rintro ⟨e,he,-⟩
      rw [unmadeEntries,Function.update_self] at he
      cases he
    · exact fun hc => absurd hc.1 (hleaf m x)
  · by_cases had : a = d
    · subst had
      have hkill : ∀ e, (e ∈ killEntry name (E a) ∧ e.live = true) ↔
          (e ∈ E a ∧ e.live = true) ∧ e.name ≠ name :=
        fun e => mem_killEntry_live (h.distinct a)
      constructor
      · rintro ⟨e,he,hl,h1,h2,hn,hx⟩
        rw [unmadeEntries_parent E name hdi] at he
        obtain ⟨⟨hm,-⟩,hne⟩ := (hkill e).mp ⟨he,hl⟩
        have hedge : Edge E a m x := ⟨e,hm,hl,h1,h2,hn,hx⟩
        refine ⟨hedge,fun hxi => hne ?_⟩
        rw [hn]
        exact ((hname hedge).mp hxi).2
      · rintro ⟨hedge,hxi⟩
        obtain ⟨e,he,hl,h1,h2,hn,hx⟩ := hedge
        have hne : e.name ≠ name := by
          intro hc
          exact hxi ((hname ⟨e,he,hl,h1,h2,hn,hx⟩).mpr ⟨rfl,hn.symm.trans hc⟩)
        have hm := (hkill e).mpr ⟨⟨he,hl⟩,hne⟩
        refine ⟨e,?_,hl,h1,h2,hn,hx⟩
        rw [unmadeEntries_parent E name hdi]
        exact hm.1
    · have hother : Edge (unmadeEntries E d name i) a m x ↔ Edge E a m x := by
        simp only [Edge,unmadeEntries_other E name had hai]
      rw [hother]
      exact ⟨fun he => ⟨he,fun hxi => had ((hname he).mp hxi).1⟩,fun he => he.1⟩

/-- Removing a name prunes a leaf. -/
theorem Tree.remove (h : Tree v E) (hi : Edge E d name i) (hr : Removable v i (E i))
    (hm : Unmade d (E d) name i v w) : Tree w (unmadeEntries E d name i) := by
  have hleaf := h.leaf_of_removable hr
  have hdi : d ≠ i := h.isTree.ne_of_edge hi
  have hd : Directory v d := by
    obtain ⟨e,he,-⟩ := hi
    exact h.directory_of_mem he
  have hmark : Marked v i := h.isTree.node_of_edge hi
  obtain ⟨-,-,hdot,hdotdot,-⟩ : ∃ e ∈ E d, name ≠ dot ∧ name ≠ dotdot ∧ True := by
    obtain ⟨e,he,-,h1,h2,-⟩ := hi
    exact ⟨e,he,h1,h2,trivial⟩
  have hi0 : 0 ≠ i := by
    rintro rfl
    exact h.isTree.root_unnamed d name hi
  have hself : ¬Directory w i := by
    rw [Directory,hm.self]
    decide
  have hmarked : ∀ x, Marked w x ↔ Marked v x ∧ x ≠ i := by
    intro x
    rw [Marked,hm.inodeUsed]
    by_cases hx : x = i
    · simp [hx]
    · simp [hx]
  have hdir : ∀ x, Directory w x → Directory v x ∧ x ≠ i := by
    intro x hx
    have hxi : x ≠ i := fun hc => hself (hc ▸ hx)
    refine ⟨?_,hxi⟩
    by_cases hxd : x = d
    · rwa [hxd]
    · rwa [Directory,hm.inode x hxd hxi] at hx
  have hlook : ∀ x, x ≠ i → ∀ n, n ≠ name →
      lookup n (unmadeEntries E d name i x) = lookup n (E x) := by
    intro x hx n hn
    by_cases hxd : x = d
    · subst hxd
      rw [unmadeEntries_parent E name hdi,lookup_killEntry (h.distinct x),if_neg hn]
    · rw [unmadeEntries_other E name hxd hx]
  refine ⟨?_,?_,?_,?_,?_,?_,?_,?_,?_,?_,?_⟩
  · intro x hx
    obtain ⟨hvx,hxi⟩ := hdir x hx
    by_cases hxd : x = d
    · subst hxd
      rw [unmadeEntries_parent E name hdi]
      exact hm.isDir
    · rw [unmadeEntries_other E name hxd hxi]
      exact isDir_congr (h.isDir x hvx) (hm.inode x hxd hxi) (hm.logical x hxd hxi)
  · intro x hx
    by_cases hxi : x = i
    · rw [hxi,unmadeEntries,Function.update_self]
    · by_cases hxd : x = d
      · exact absurd (hxd ▸ hm.isDir.iType) hx
      · rw [unmadeEntries_other E name hxd hxi]
        refine h.notDir x fun hc => hx ?_
        rwa [Directory,hm.inode x hxd hxi]
  · intro x
    by_cases hxi : x = i
    · rw [hxi,unmadeEntries,Function.update_self]
      exact List.Pairwise.nil
    · by_cases hxd : x = d
      · subst hxd
        rw [unmadeEntries_parent E name hdi]
        exact (h.distinct x).killEntry name
      · rw [unmadeEntries_other E name hxd hxi]
        exact h.distinct x
  · by_cases h0 : 0 = d
    · exact h0 ▸ hm.isDir.iType
    · rw [Directory,hm.inode 0 h0 hi0]
      exact h.root
  · intro x hx
    by_cases hxi : x = i
    · rw [hxi,hm.self]
    · have hv : ¬Marked v x := fun hc => hx ((hmarked x).mpr ⟨hc,hxi⟩)
      have hxd : x ≠ d := fun hc => hv (hc ▸ h.marked_of_directory hd)
      rw [hm.inode x hxd hxi]
      exact h.unmarked x hv
  · intro x hx
    exact h.bound x ((hmarked x).mp hx).1
  · have hheld := held_update_of_ne (f := v.inodeUsed) (z := false)
      (Finset.mem_range.mpr (h.bound i hmark)) (by rw [hmark]; simp)
    have hc := h.count
    rw [hm.usedInodes,hm.inodeUsed,toNat_sub_one _ (by omega)]
    omega
  · exact h.isTree.prune hi hleaf hmarked (edge_unmadeEntries h hi hleaf)
  · intro x hx
    obtain ⟨hvx,hxi⟩ := hdir x hx
    rw [hlook x hxi _ hdot.symm]
    exact h.dot_entry x hvx
  · rw [hlook 0 hi0 _ hdotdot.symm]
    exact h.dotdot_root
  · intro a m x he hx
    obtain ⟨hvx,hxi⟩ := hdir x hx
    rw [hlook x hxi _ hdotdot.symm]
    exact h.dotdot_entry a m x ((edge_unmadeEntries h hi hleaf a m x).mp he).1 hvx

end Removing

/-! ## Writing a file -/

/-- A change of a file keeps the tree. -/
theorem Tree.write {v w : Volume} {E : ℕ → List Entry} {i : ℕ} (h : Tree v E)
    (hm : Marked v i) (hf : ¬Directory v i) (hw : Frame i v w)
    (ht : (w.inode i).iType = (v.inode i).iType) : Tree w E := by
  have hdir : ∀ x, Directory w x ↔ Directory v x := by
    intro x
    by_cases hx : x = i
    · rw [hx,Directory,ht]
    · rw [Directory,hw.inode x hx]
  have hmarked : ∀ x, Marked w x ↔ Marked v x := by
    intro x
    rw [Marked,hw.inodeUsed]
  refine { h with
    isDir := fun x hx => ?_
    notDir := fun x hx => h.notDir x fun hc => hx ((hdir x).mpr hc)
    root := (hdir 0).mpr h.root
    unmarked := fun x hx => ?_
    bound := fun x hx => h.bound x ((hmarked x).mp hx)
    count := by rw [hw.usedInodes,hw.inodeUsed,h.count]
    isTree := h.isTree.congr hmarked fun _ _ _ => Iff.rfl
    dot_entry := fun x hx => h.dot_entry x ((hdir x).mp hx)
    dotdot_entry := fun a m x he hx => h.dotdot_entry a m x he ((hdir x).mp hx) }
  · have hvx := (hdir x).mp hx
    have hxi : x ≠ i := by
      rintro rfl
      exact hf hvx
    exact isDir_congr (h.isDir x hvx) (hw.inode x hxi) (hw.logical x hxi)
  · have hv : ¬Marked v x := fun hc => hx ((hmarked x).mpr hc)
    have hxi : x ≠ i := by
      rintro rfl
      exact hv hm
    rw [hw.inode x hxi]
    exact h.unmarked x hv

/-- Nothing that the tree speaks of has changed. -/
theorem Tree.congr {v w : Volume} {E : ℕ → List Entry} (h : Tree v E) (hi : w.inode = v.inode)
    (hl : logical w = logical v) (hu : w.inodeUsed = v.inodeUsed)
    (hn : w.usedInodes = v.usedInodes) : Tree w E where
  isDir x hx := by
    rw [Directory,hi] at hx
    exact isDir_congr (h.isDir x hx) (congrFun hi x) (congrFun hl x)
  notDir x hx := by
    rw [Directory,hi] at hx
    exact h.notDir x hx
  distinct := h.distinct
  root := by
    rw [Directory,hi]
    exact h.root
  unmarked x hx := by
    rw [Marked,hu] at hx
    rw [hi]
    exact h.unmarked x hx
  bound x hx := by
    rw [Marked,hu] at hx
    exact h.bound x hx
  count := by rw [hn,hu,h.count]
  isTree := h.isTree.congr (fun x => by rw [Marked,hu]) fun _ _ _ => Iff.rfl
  dot_entry x hx := by
    rw [Directory,hi] at hx
    exact h.dot_entry x hx
  dotdot_root := h.dotdot_root
  dotdot_entry a m x he hx := by
    rw [Directory,hi] at hx
    exact h.dotdot_entry a m x he hx

end FsTree
end OsLabs

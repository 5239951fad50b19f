import Mathlib.Data.Set.Card
import Mathlib.Tactic
import OsLabs.RootedTree

/-!
# Trees of named files

A `FileTree` says which paths lead to a directory and which to a file with its data. What has a
path below it is a directory. Files and directories can be made below a directory, what has nothing
below it can be removed, and the data of a file can be replaced. `Shows` connects it to a tree
of labelled edges whose nodes are directories or files: grafting a leaf makes a name, pruning one
removes it.
-/

namespace OsLabs

/-! ## Paths -/

namespace RootedTree

variable {ν ℓ : Type*}

section Paths

variable {root d i : ν} {n : ℓ} {p q : List ℓ} {node : ν → Prop} {edge edge' : ν → ℓ → ν → Prop}

theorem Path.node_end (h : IsTree root node edge) (hp : Path root edge p i) : node i := by
  cases hp with
  | root => exact h.node_root
  | step _ he => exact h.node_of_edge he

theorem Path.functional (h : IsTree root node edge) {j : ν} (hi : Path root edge p i)
    (hj : Path root edge p j) : i = j := by
  induction hi generalizing j with
  | root =>
    generalize hq : ([] : List ℓ) = q at hj
    cases hj with
    | root => rfl
    | step _ _ => simp at hq
  | step hp he ih =>
    rename_i p d i n
    generalize hq : p ++ [n] = q at hj
    cases hj with
    | root => simp at hq
    | step hp' he' =>
      obtain ⟨rfl,hn⟩ := List.append_inj' hq rfl
      obtain rfl := List.singleton_inj.mp hn
      obtain rfl := ih hp'
      exact h.functional _ _ _ _ he he'

theorem Path.mono (hedge : ∀ a m x, edge a m x → edge' a m x) (hp : Path root edge p i) :
    Path root edge' p i := by
  induction hp with
  | root => exact .root
  | step _ he ih => exact .step ih (hedge _ _ _ he)

/-- A path that ends with a label goes through the node before it. -/
theorem Path.of_concat (hp : Path root edge (p ++ [n]) i) : ∃ d, Path root edge p d ∧ edge d n i := by
  generalize hq : p ++ [n] = q at hp
  cases hp with
  | root => simp at hq
  | step hp he =>
    obtain ⟨rfl,hn⟩ := List.append_inj' hq rfl
    obtain rfl := List.singleton_inj.mp hn
    exact ⟨_,hp,he⟩

/-- Grafting a leaf adds the path to it. -/
theorem Path.graft_iff (h : IsTree root node edge) (hp : Path root edge p d) (hi : ¬node i)
    (hedge : ∀ a m x, edge' a m x ↔ edge a m x ∨ (a = d ∧ m = n ∧ x = i)) {x : ν} :
    Path root edge' q x ↔ Path root edge q x ∨ (q = p ++ [n] ∧ x = i) := by
  constructor
  · intro hq
    induction hq with
    | root => exact .inl .root
    | step _ he ih =>
      rcases (hedge _ _ _).mp he with he | ⟨rfl,rfl,rfl⟩
      · rcases ih with hq | ⟨-,rfl⟩
        · exact .inl (.step hq he)
        · exact absurd (h.source _ _ _ he) hi
      · rcases ih with hq | ⟨-,rfl⟩
        · exact .inr ⟨by rw [hq.unique h hp],rfl⟩
        · exact absurd (hp.node_end h) hi
  · have hmono : ∀ {q x}, Path root edge q x → Path root edge' q x :=
      Path.mono fun a m x he => (hedge a m x).mpr (.inl he)
    rintro (hq | ⟨rfl,rfl⟩)
    · exact hmono hq
    · exact .step (hmono hp) ((hedge _ _ _).mpr (.inr ⟨rfl,rfl,rfl⟩))

/-- Pruning a leaf takes the path to it away. -/
theorem Path.prune_iff (h : IsTree root node edge) (hi : edge d n i) (hleaf : ∀ m j, ¬edge i m j)
    (hedge : ∀ a m x, edge' a m x ↔ edge a m x ∧ x ≠ i) {x : ν} :
    Path root edge' q x ↔ Path root edge q x ∧ x ≠ i := by
  constructor
  · intro hq
    induction hq with
    | root => exact ⟨.root,fun hc => h.root_unnamed d n (hc ▸ hi)⟩
    | step _ he ih =>
      obtain ⟨he,hx⟩ := (hedge _ _ _).mp he
      exact ⟨.step ih.1 he,hx⟩
  · rintro ⟨hq,hx⟩
    induction hq with
    | root => exact .root
    | step _ he ih =>
      refine .step (ih fun hc => ?_) ((hedge _ _ _).mpr ⟨he,hx⟩)
      exact hleaf _ _ (hc ▸ he)

end Paths

end RootedTree

namespace FileTrees

open RootedTree

variable {ν ℓ φ : Type*}

inductive Node (φ : Type*)
  | directory
  | file (data : φ)

def Node.isDirectory : Node φ → Bool
  | .directory => true
  | .file _ => false

@[ext]
structure FileTree (ℓ φ : Type*) where
  node : List ℓ → Option (Node φ)
  root : node [] = some .directory
  parent : ∀ p n, node (p ++ [n]) ≠ none → node p = some .directory

namespace FileTree

section Operations

variable [DecidableEq ℓ] (T : FileTree ℓ φ) {p : List ℓ} {n : ℓ}

/-- The root alone. -/
def single : FileTree ℓ φ where
  node := Function.update (fun _ => none) [] (some .directory)
  root := Function.update_self ..
  parent := by
    intro p n h
    rw [Function.update_of_ne (by simp)] at h
    exact absurd rfl h

/-- A new name below the directory `p`. -/
def make (x : Node φ) (hp : T.node p = some .directory) (hnew : T.node (p ++ [n]) = none) :
    FileTree ℓ φ where
  node := Function.update T.node (p ++ [n]) (some x)
  root := by
    rw [Function.update_of_ne (by simp)]
    exact T.root
  parent := by
    intro q m hq
    have hdir : T.node q = some .directory := by
      by_cases hqm : q ++ [m] = p ++ [n]
      · rw [(List.append_inj' hqm rfl).1]
        exact hp
      · rw [Function.update_of_ne hqm] at hq
        exact T.parent q m hq
    rw [Function.update_of_ne]
    · exact hdir
    · rintro rfl
      rw [hnew] at hdir
      cases hdir

/-- A name with nothing below it is removed. -/
def remove (hleaf : ∀ m, T.node (p ++ [n] ++ [m]) = none) : FileTree ℓ φ where
  node := Function.update T.node (p ++ [n]) none
  root := by
    rw [Function.update_of_ne (by simp)]
    exact T.root
  parent := by
    intro q m hq
    have hqm : q ++ [m] ≠ p ++ [n] := by
      intro hqm
      rw [hqm,Function.update_self] at hq
      exact hq rfl
    rw [Function.update_of_ne hqm] at hq
    rw [Function.update_of_ne]
    · exact T.parent q m hq
    · rintro rfl
      exact hq (hleaf m)

/-- The file at `p` has other data. -/
def put {old : φ} (data : φ) (hp : T.node p = some (.file old)) : FileTree ℓ φ where
  node := Function.update T.node p (some (.file data))
  root := by
    rw [Function.update_of_ne]
    · exact T.root
    · rintro rfl
      rw [T.root] at hp
      cases hp
  parent := by
    intro q m hq
    have hdir : T.node q = some .directory := by
      refine T.parent q m fun hnone => ?_
      by_cases hqm : q ++ [m] = p
      · rw [hqm,hp] at hnone
        cases hnone
      · rw [Function.update_of_ne hqm] at hq
        exact hq hnone
    rw [Function.update_of_ne]
    · exact hdir
    · rintro rfl
      rw [hp] at hdir
      cases hdir

end Operations

/-- What is above a directory is one. -/
theorem node_dropLast (T : FileTree ℓ φ) {p : List ℓ} (hp : T.node p = some .directory) :
    T.node p.dropLast = some .directory := by
  rcases List.eq_nil_or_concat' p with rfl | ⟨q,n,rfl⟩
  · exact T.root
  · rw [List.dropLast_concat]
    refine T.parent q n ?_
    rw [hp]
    simp

/-- The number of files and directories. -/
noncomputable def size (T : FileTree ℓ φ) : ℕ := {p | T.node p ≠ none}.ncard

end FileTree

/-! ## Trees of labelled edges -/

/-- The paths of `T` are those of the edges, and the nodes at their ends are of these kinds. -/
def Shows (T : FileTree ℓ φ) (root : ν) (edge : ν → ℓ → ν → Prop) (kind : ν → Node φ) : Prop :=
  ∀ p x, T.node p = some x ↔ ∃ i, Path root edge p i ∧ kind i = x

section Shows

variable {T : FileTree ℓ φ} {root d i : ν} {n : ℓ} {p : List ℓ} {node : ν → Prop}
  {edge edge' : ν → ℓ → ν → Prop} {kind kind' : ν → Node φ}

theorem Shows.node_eq (h : Shows T root edge kind) (hp : Path root edge p i) :
    T.node p = some (kind i) := (h p _).mpr ⟨i,hp,rfl⟩

theorem Shows.node_ne_none (h : Shows T root edge kind) :
    T.node p ≠ none ↔ ∃ i, Path root edge p i := by
  rw [Option.ne_none_iff_exists']
  constructor
  · rintro ⟨x,hx⟩
    obtain ⟨i,hi,-⟩ := (h p x).mp hx
    exact ⟨i,hi⟩
  · rintro ⟨i,hi⟩
    exact ⟨kind i,h.node_eq hi⟩

theorem Shows.node_eq_none (h : Shows T root edge kind) :
    T.node p = none ↔ ∀ i, ¬Path root edge p i := by
  rw [← not_iff_not,not_forall_not]
  exact h.node_ne_none

/-- What is below a node is at the ends of its edges. -/
theorem Shows.node_below (h : Shows T root edge kind) (ht : IsTree root node edge)
    (hp : Path root edge p d) : T.node (p ++ [n]) ≠ none ↔ ∃ i, edge d n i := by
  rw [h.node_ne_none]
  constructor
  · rintro ⟨i,hi⟩
    obtain ⟨d',hp',he⟩ := hi.of_concat
    obtain rfl := hp.functional ht hp'
    exact ⟨i,he⟩
  · rintro ⟨i,he⟩
    exact ⟨i,.step hp he⟩

theorem Shows.single [DecidableEq ℓ] (hedge : ∀ a m x, ¬edge a m x) (hroot : kind root = .directory) :
    Shows FileTree.single root edge kind := by
  intro p x
  constructor
  · intro hx
    by_cases hp : p = []
    · subst hp
      rw [FileTree.root,Option.some.injEq] at hx
      exact ⟨root,.root,hroot.trans hx⟩
    · simp only [FileTree.single,Function.update_of_ne hp] at hx
      cases hx
  · rintro ⟨i,hi,rfl⟩
    cases hi with
    | root =>
      rw [hroot]
      exact FileTree.root _
    | step _ he => exact absurd he (hedge _ _ _)

theorem Shows.make [DecidableEq ℓ] (h : Shows T root edge kind) (ht : IsTree root node edge)
    (hp : Path root edge p d) (hdir : T.node p = some .directory) (hnew : T.node (p ++ [n]) = none)
    (hi : ¬node i) (hedge : ∀ a m x, edge' a m x ↔ edge a m x ∨ (a = d ∧ m = n ∧ x = i))
    (hkind : ∀ j, node j → kind' j = kind j) :
    Shows (T.make (kind' i) hdir hnew) root edge' kind' := by
  intro q x
  simp only [FileTree.make,Path.graft_iff ht hp hi hedge]
  by_cases hq : q = p ++ [n]
  · subst hq
    rw [Function.update_self,Option.some.injEq]
    constructor
    · rintro rfl
      exact ⟨i,.inr ⟨rfl,rfl⟩,rfl⟩
    · rintro ⟨j,hj | ⟨-,rfl⟩,rfl⟩
      · exact absurd hj (h.node_eq_none.mp hnew j)
      · rfl
  · rw [Function.update_of_ne hq,h q x]
    constructor
    · rintro ⟨j,hj,rfl⟩
      exact ⟨j,.inl hj,hkind j (hj.node_end ht)⟩
    · rintro ⟨j,hj | ⟨hc,-⟩,rfl⟩
      · exact ⟨j,hj,(hkind j (hj.node_end ht)).symm⟩
      · exact absurd hc hq

theorem Shows.remove [DecidableEq ℓ] (h : Shows T root edge kind) (ht : IsTree root node edge)
    (hp : Path root edge p d) (hi : edge d n i) (hleaf : ∀ m j, ¬edge i m j)
    (hnone : ∀ m, T.node (p ++ [n] ++ [m]) = none)
    (hedge : ∀ a m x, edge' a m x ↔ edge a m x ∧ x ≠ i)
    (hkind : ∀ j, j ≠ i → kind' j = kind j) : Shows (T.remove hnone) root edge' kind' := by
  have hpi : Path root edge (p ++ [n]) i := .step hp hi
  intro q x
  simp only [FileTree.remove,Path.prune_iff ht hi hleaf hedge]
  by_cases hq : q = p ++ [n]
  · subst hq
    rw [Function.update_self]
    constructor
    · rintro ⟨⟩
    · rintro ⟨j,⟨hj,hne⟩,-⟩
      exact absurd (hj.functional ht hpi) hne
  · rw [Function.update_of_ne hq,h q x]
    constructor
    · rintro ⟨j,hj,rfl⟩
      have hne : j ≠ i := by
        rintro rfl
        exact hq (hj.unique ht hpi)
      exact ⟨j,⟨hj,hne⟩,hkind j hne⟩
    · rintro ⟨j,⟨hj,hne⟩,rfl⟩
      exact ⟨j,hj,(hkind j hne).symm⟩

theorem Shows.put [DecidableEq ℓ] (h : Shows T root edge kind) (ht : IsTree root node edge)
    (hp : Path root edge p i) {old data : φ} (hold : T.node p = some (.file old))
    (hself : kind' i = .file data) (hkind : ∀ j, j ≠ i → kind' j = kind j) :
    Shows (T.put data hold) root edge kind' := by
  intro q x
  simp only [FileTree.put]
  by_cases hq : q = p
  · subst hq
    rw [Function.update_self,Option.some.injEq]
    constructor
    · rintro rfl
      exact ⟨i,hp,hself⟩
    · rintro ⟨j,hj,rfl⟩
      rw [hj.functional ht hp]
      exact hself.symm
  · rw [Function.update_of_ne hq,h q x]
    have hne : ∀ j, Path root edge q j → j ≠ i := by
      rintro j hj rfl
      exact hq (hj.unique ht hp)
    constructor
    · rintro ⟨j,hj,rfl⟩
      exact ⟨j,hj,hkind j (hne j hj)⟩
    · rintro ⟨j,hj,rfl⟩
      exact ⟨j,hj,(hkind j (hne j hj)).symm⟩

/-- There are as many files and directories as there are nodes. -/
theorem Shows.size_eq (h : Shows T root edge kind) (ht : IsTree root node edge) :
    T.size = {i | node i}.ncard := by
  choose path hpath using fun i : {i // node i} => ht.exists_path i.2
  refine (Set.ncard_congr (fun i hi => path ⟨i,hi⟩) ?_ ?_ ?_).symm
  · intro i hi
    exact h.node_ne_none.mpr ⟨i,hpath ⟨i,hi⟩⟩
  · intro i j hi hj heq
    refine (hpath ⟨i,hi⟩).functional ht ?_
    rw [heq]
    exact hpath ⟨j,hj⟩
  · intro p hp
    obtain ⟨i,hi⟩ := h.node_ne_none.mp hp
    exact ⟨i,hi.node_end ht,(hpath ⟨i,hi.node_end ht⟩).unique ht hi⟩

end Shows

end FileTrees
end OsLabs

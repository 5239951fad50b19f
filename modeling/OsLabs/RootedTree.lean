import Mathlib.Data.Finset.Card
import Mathlib.Data.List.Nodup
import Mathlib.Tactic

/-!
# Trees of labelled edges

Nodes are connected by labelled edges; an edge leaves a node with a label to at most one node.
`IsTree` says that every node is the root or is entered by exactly one edge, that no edge enters
the root, and that the edges lead away from the root. New leaves can be grafted on and leaves can
be pruned. In a tree every node is at the end of exactly one path from the root, and the path is
shorter than the number of nodes.
-/

namespace OsLabs
namespace RootedTree

variable {ν ℓ : Type*}

structure IsTree (root : ν) (node : ν → Prop) (edge : ν → ℓ → ν → Prop) : Prop where
  source : ∀ d n i, edge d n i → node d
  functional : ∀ d n i j, edge d n i → edge d n j → i = j
  covered : ∀ i, node i ↔ i = root ∨ ∃ d n, edge d n i
  unique : ∀ d n d' n' i, edge d n i → edge d' n' i → d = d' ∧ n = n'
  root_unnamed : ∀ d n, ¬edge d n root
  depth : ∃ depth : ν → ℕ, ∀ d n i, edge d n i → depth i = depth d + 1

/-- The labels on the way from the root to a node. -/
inductive Path (root : ν) (edge : ν → ℓ → ν → Prop) : List ℓ → ν → Prop
  | root : Path root edge [] root
  | step {p : List ℓ} {d i : ν} {n : ℓ} : Path root edge p d → edge d n i →
      Path root edge (p ++ [n]) i

section Changes

variable {root d i : ν} {n : ℓ} {node node' : ν → Prop} {edge edge' : ν → ℓ → ν → Prop}

theorem IsTree.node_root (h : IsTree root node edge) : node root :=
  (h.covered root).mpr (Or.inl rfl)

theorem IsTree.node_of_edge (h : IsTree root node edge) (he : edge d n i) : node i :=
  (h.covered i).mpr (Or.inr ⟨d,n,he⟩)

theorem IsTree.ne_of_edge (h : IsTree root node edge) (he : edge d n i) : d ≠ i := by
  obtain ⟨depth,hdepth⟩ := h.depth
  rintro rfl
  have := hdepth d n d he
  omega

theorem isTree_root (root : ν) : IsTree root (fun i => i = root) (fun _ (_ : ℓ) _ => False) := by
  refine ⟨by simp,by simp,by simp,by simp,by simp,fun _ => 0,by simp⟩

/-- Only the extensions of nodes and edges matter. -/
theorem IsTree.congr (h : IsTree root node edge) (hnode : ∀ x, node' x ↔ node x)
    (hedge : ∀ a m x, edge' a m x ↔ edge a m x) : IsTree root node' edge' := by
  obtain rfl : node' = node := funext fun x => propext (hnode x)
  obtain rfl : edge' = edge := by
    funext a m x
    exact propext (hedge a m x)
  exact h

theorem IsTree.graft (h : IsTree root node edge) (hd : node d) (hi : ¬node i)
    (hn : ∀ j, ¬edge d n j) (hnode : ∀ x, node' x ↔ x = i ∨ node x)
    (hedge : ∀ a m x, edge' a m x ↔ edge a m x ∨ (a = d ∧ m = n ∧ x = i)) :
    IsTree root node' edge' := by
  classical
  have hold : ∀ {a m x}, edge a m x → x ≠ i := by
    rintro a m x he rfl
    exact hi (h.node_of_edge he)
  have hsource : ∀ {a m x}, edge a m x → a ≠ i := by
    rintro a m x he rfl
    exact hi (h.source _ m x he)
  have hdi : d ≠ i := by
    rintro rfl
    exact hi hd
  obtain ⟨depth,hdepth⟩ := h.depth
  refine ⟨?_,?_,?_,?_,?_,Function.update depth i (depth d + 1),?_⟩
  · intro a m x he
    rw [hnode]
    rcases (hedge a m x).mp he with he | ⟨rfl,rfl,rfl⟩
    · exact Or.inr (h.source a m x he)
    · exact Or.inr hd
  · intro a m x y hx hy
    rcases (hedge a m x).mp hx with hx | ⟨rfl,rfl,rfl⟩
    · rcases (hedge a m y).mp hy with hy | ⟨rfl,rfl,rfl⟩
      · exact h.functional a m x y hx hy
      · exact absurd hx (hn x)
    · rcases (hedge a m y).mp hy with hy | ⟨-,-,rfl⟩
      · exact absurd hy (hn y)
      · rfl
  · intro x
    rw [hnode,h.covered]
    constructor
    · rintro (rfl | rfl | ⟨a,m,he⟩)
      · exact Or.inr ⟨d,n,(hedge d n x).mpr (Or.inr ⟨rfl,rfl,rfl⟩)⟩
      · exact Or.inl rfl
      · exact Or.inr ⟨a,m,(hedge a m x).mpr (Or.inl he)⟩
    · rintro (rfl | ⟨a,m,he⟩)
      · exact Or.inr (Or.inl rfl)
      · rcases (hedge a m x).mp he with he | ⟨-,-,rfl⟩
        · exact Or.inr (Or.inr ⟨a,m,he⟩)
        · exact Or.inl rfl
  · intro a m b k x hx hy
    rcases (hedge a m x).mp hx with hx | ⟨rfl,rfl,rfl⟩
    · rcases (hedge b k x).mp hy with hy | ⟨-,-,rfl⟩
      · exact h.unique a m b k x hx hy
      · exact absurd rfl (hold hx)
    · rcases (hedge b k x).mp hy with hy | ⟨rfl,rfl,-⟩
      · exact absurd rfl (hold hy)
      · exact ⟨rfl,rfl⟩
  · intro a m he
    rcases (hedge a m root).mp he with he | ⟨-,-,rfl⟩
    · exact h.root_unnamed a m he
    · exact hi h.node_root
  · intro a m x he
    rcases (hedge a m x).mp he with he | ⟨rfl,rfl,rfl⟩
    · rw [Function.update_of_ne (hold he),Function.update_of_ne (hsource he),hdepth a m x he]
    · rw [Function.update_self,Function.update_of_ne hdi]

theorem IsTree.prune (h : IsTree root node edge) (hi : edge d n i) (hleaf : ∀ m j, ¬edge i m j)
    (hnode : ∀ x, node' x ↔ node x ∧ x ≠ i)
    (hedge : ∀ a m x, edge' a m x ↔ edge a m x ∧ x ≠ i) : IsTree root node' edge' := by
  have hroot : root ≠ i := by
    rintro rfl
    exact h.root_unnamed d n hi
  obtain ⟨depth,hdepth⟩ := h.depth
  refine ⟨?_,?_,?_,?_,?_,depth,?_⟩
  · intro a m x he
    have he' := ((hedge a m x).mp he).1
    refine (hnode a).mpr ⟨h.source a m x he',?_⟩
    rintro rfl
    exact hleaf m x he'
  · intro a m x y hx hy
    exact h.functional a m x y ((hedge a m x).mp hx).1 ((hedge a m y).mp hy).1
  · intro x
    rw [hnode,h.covered]
    constructor
    · rintro ⟨rfl | ⟨a,m,he⟩,hx⟩
      · exact Or.inl rfl
      · exact Or.inr ⟨a,m,(hedge a m x).mpr ⟨he,hx⟩⟩
    · rintro (rfl | ⟨a,m,he⟩)
      · exact ⟨Or.inl rfl,hroot⟩
      · obtain ⟨he,hx⟩ := (hedge a m x).mp he
        exact ⟨Or.inr ⟨a,m,he⟩,hx⟩
  · intro a m b k x hx hy
    exact h.unique a m b k x ((hedge a m x).mp hx).1 ((hedge b k x).mp hy).1
  · intro a m he
    exact h.root_unnamed a m ((hedge a m root).mp he).1
  · intro a m x he
    exact hdepth a m x ((hedge a m x).mp he).1

end Changes

/-! ## Paths -/

section Paths

variable {root i : ν} {node : ν → Prop} {edge : ν → ℓ → ν → Prop}

theorem IsTree.exists_path (h : IsTree root node edge) (hi : node i) :
    ∃ p, Path root edge p i := by
  obtain ⟨depth,hdepth⟩ := h.depth
  induction hk : depth i using Nat.strong_induction_on generalizing i with
  | _ k ih =>
    rcases (h.covered i).mp hi with rfl | ⟨d,n,he⟩
    · exact ⟨[],Path.root⟩
    · have hlt := hdepth d n i he
      obtain ⟨p,hp⟩ := ih (depth d) (by omega) (h.source d n i he) rfl
      exact ⟨p ++ [n],Path.step hp he⟩

theorem Path.unique (h : IsTree root node edge) {p q : List ℓ} (hp : Path root edge p i)
    (hq : Path root edge q i) : p = q := by
  induction hp generalizing q with
  | root =>
    cases hq with
    | root => rfl
    | step _ he => exact absurd he (h.root_unnamed _ _)
  | step _ he ih =>
    cases hq with
    | root => exact absurd he (h.root_unnamed _ _)
    | step hq he' =>
      obtain ⟨rfl,rfl⟩ := h.unique _ _ _ _ _ he he'
      rw [ih hq]

theorem IsTree.acyclic (h : IsTree root node edge) :
    ¬Relation.TransGen (fun d i => ∃ n, edge d n i) i i := by
  obtain ⟨depth,hdepth⟩ := h.depth
  have hlt : ∀ {a b}, Relation.TransGen (fun d i => ∃ n, edge d n i) a b → depth a < depth b := by
    intro a b hab
    induction hab with
    | single he =>
      obtain ⟨n,he⟩ := he
      have := hdepth _ n _ he
      omega
    | tail _ he ih =>
      obtain ⟨n,he⟩ := he
      have := hdepth _ n _ he
      omega
  intro hii
  exact lt_irrefl _ (hlt hii)

theorem Path.exists_nodes (h : IsTree root node edge) {p : List ℓ} (hp : Path root edge p i) :
    ∃ l : List ν, l.Nodup ∧ l.length = p.length + 1 ∧ ∀ x ∈ l, node x := by
  obtain ⟨depth,hdepth⟩ := h.depth
  have hstrong : ∃ l : List ν, l.Nodup ∧ l.length = p.length + 1 ∧
      ∀ x ∈ l, node x ∧ depth x ≤ depth i := by
    induction hp with
    | root => exact ⟨[root],List.nodup_singleton _,rfl,by simp [h.node_root]⟩
    | step _ he ih =>
      rename_i p d i n _
      obtain ⟨l,hl,hlen,hnode⟩ := ih
      have hlt := hdepth d n i he
      refine ⟨i::l,List.nodup_cons.mpr ⟨fun hm => ?_,hl⟩,?_,?_⟩
      · have := (hnode i hm).2
        omega
      · rw [List.length_cons,hlen,List.length_append,List.length_singleton]
      · intro x hx
        rcases List.mem_cons.mp hx with rfl | hx
        · exact ⟨h.node_of_edge he,le_rfl⟩
        · obtain ⟨h1,h2⟩ := hnode x hx
          exact ⟨h1,by omega⟩
  obtain ⟨l,hl,hlen,hnode⟩ := hstrong
  exact ⟨l,hl,hlen,fun x hx => (hnode x hx).1⟩

theorem Path.length_lt_card [DecidableEq ν] (h : IsTree root node edge) {S : Finset ν}
    (hS : ∀ x, node x → x ∈ S) {p : List ℓ} (hp : Path root edge p i) : p.length < S.card := by
  obtain ⟨l,hl,hlen,hnode⟩ := hp.exists_nodes h
  have hsub : l.toFinset ⊆ S := fun x hx => hS x (hnode x (List.mem_toFinset.mp hx))
  have hcard := Finset.card_le_card hsub
  rw [List.toFinset_card_of_nodup hl] at hcard
  omega

end Paths

end RootedTree
end OsLabs

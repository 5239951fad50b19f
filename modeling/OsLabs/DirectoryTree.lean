import Mathlib.Data.BitVec
import Mathlib.Data.Finset.Card
import Mathlib.Tactic
import OsLabs.Bytes
import OsLabs.BitmapModel
import OsLabs.Wlp
import OsLabs.Holdings
import OsLabs.Transition
import OsLabs.FsModel
import OsLabs.DirModel
import OsLabs.FsVolume
import OsLabs.FsAccounts
import OsLabs.Dirents
import OsLabs.DirMap
import OsLabs.DirOps
import OsLabs.FsCreation
import OsLabs.RootedTree
import OsLabs.FsTree
import OsLabs.FsCommands
import OsLabs.FsReading
import OsLabs.FsWalks
import OsLabs.FsImage
import OsLabs.FsSessions
import OsLabs.DirReplies
import OsLabs.DirectoryMaps

/-!
# The directories form a tree

In every state between two commands the inodes in use are the root and the ones that one live
entry names, the entries "." and ".." are as they should be, and every inode in use is reached
from the root. Therefore `testfs_pwd` returns, the names that it prints lead back to the current
directory, and the rounds of `testfs_ls` come to an end.
-/

namespace OsLabs
namespace DirectoryTree

open Bytes BitmapModel FsModel DirModel FsVolume FsAccounts Dirents DirMap DirOps FsCreation
open Holdings RootedTree FsTree FsCommands FsReading FsWalks FsImage FsSessions DirReplies DirectoryMaps
open Transition

/-- The entry at the position `k` of the directory `d` is live, is not "." or "..", and names the
inode `i`. -/
def Names (E : ℕ → List Entry) (d k i : ℕ) : Prop :=
  ∃ e, (E d)[k]? = some e ∧ e.live = true ∧ e.name ≠ dot ∧ e.name ≠ dotdot ∧ e.nr.toNat = i

structure IsDirectoryTree (s : Testfs) (E : ℕ → List Entry) : Prop where
  listing : Listing s E
  marked : ∀ i < 2^16, bitmapIsset s.inodeFreemap i = true ↔ i = 0 ∨ ∃ d k, Names E d k i
  once : ∀ d k d' k' i, Names E d k i → Names E d' k' i → d = d' ∧ k = k'
  root_unnamed : ∀ d k, ¬Names E d k 0
  count : s.sb.usedInodeCount.toNat =
    ((Finset.range (2^16)).filter fun i => bitmapIsset s.inodeFreemap i = true).card
  dot_self : ∀ d, Directory (volume s) d → nrOf dot (E d) = d
  dotdot_root : nrOf dotdot (E 0) = 0
  dotdot_holder : ∀ d k i, Names E d k i → Directory (volume s) i → nrOf dotdot (E i) = d
  allocated : ∀ i, Directory (volume s) i → bitmapIsset s.inodeFreemap i = true
  reachable : ∀ i < 2^16, bitmapIsset s.inodeFreemap i = true → ∃ p, Path 0 (Edge E) p i
  acyclic : ∀ i, ¬Relation.TransGen (fun d i => ∃ n, Edge E d n i) i i
  unmarked : ∀ i < 2^16, bitmapIsset s.inodeFreemap i = false → inodeView s i = Dinode.zero
  curDir : Directory (volume s) s.curDir

section Facts

variable {s : Testfs} {c : Memory} {v : Volume} {E : ℕ → List Entry} {d i k : ℕ}

theorem inodeUsed_eq_isset (hs : Coherent s) (hi : i < 2^16) :
    (volume s).inodeUsed i = bitmapIsset s.inodeFreemap i := by
  have hlt : i < s.inodeFreemap.nbits := by
    rw [hs.inodeBits]
    exact hi
  exact bits_of_lt hlt

theorem edge_of_names (h : Names E d k i) :
    ∃ e, (E d)[k]? = some e ∧ e.live = true ∧ Edge E d e.name i := by
  obtain ⟨e,hk,hl,h1,h2,hi⟩ := h
  exact ⟨e,hk,hl,e,List.mem_of_getElem? hk,hl,h1,h2,rfl,hi⟩

theorem names_of_edge {n : CString} (h : Edge E d n i) : ∃ k, Names E d k i := by
  obtain ⟨e,hm,hl,h1,h2,rfl,hi⟩ := h
  obtain ⟨k,hk⟩ := List.getElem?_of_mem hm
  exact ⟨k,e,hk,hl,h1,h2,hi⟩

/-- A live name stands at one position. -/
theorem Distinct.position {es : List Entry} (h : Distinct es) {j k : ℕ} {x y : Entry}
    (hx : es[j]? = some x) (hy : es[k]? = some y) (hlx : x.live = true) (hly : y.live = true)
    (hn : x.name = y.name) : j = k := by
  obtain ⟨hj,rfl⟩ := List.getElem?_eq_some_iff.mp hx
  obtain ⟨hk,rfl⟩ := List.getElem?_eq_some_iff.mp hy
  have hpair := List.pairwise_iff_getElem.mp h
  rcases Nat.lt_trichotomy j k with hlt | heq | hgt
  · exact absurd hn (hpair j k hj hk hlt hlx hly)
  · exact heq
  · exact absurd hn.symm (hpair k j hk hj hgt hly hlx)

theorem nrOf_of_lookup {n m : CString} (hi : i < nrInodes)
    (h : lookup n (E d) = some ⟨BitVec.ofNat 32 i,m⟩) : nrOf n (E d) = i := by
  rw [nrOf,h]
  exact toInt_ofNat_inode hi

theorem isDirectoryTree_of_ready (h : Ready s c (volume s) E) : IsDirectoryTree s E := by
  have ht := h.tree
  have hc := h.valid.stands.coherent
  have hbig : ∀ {i}, i < nrInodes → i < 2^16 := by
    intro i hi
    simp only [nrInodes] at hi
    omega
  have hisset : ∀ i < 2^16, bitmapIsset s.inodeFreemap i = true ↔ Marked (volume s) i := by
    intro i hi
    rw [Marked,inodeUsed_eq_isset hc hi]
  have hnames : ∀ {d k i}, Names E d k i → ∃ n, Edge E d n i := by
    intro d k i hn
    obtain ⟨e,-,-,he⟩ := edge_of_names hn
    exact ⟨_,he⟩
  refine ⟨listing_of_ready h,?_,?_,?_,?_,?_,?_,?_,?_,?_,fun _ => ht.isTree.acyclic,?_,?_⟩
  · intro i hi
    rw [hisset i hi,ht.isTree.covered i]
    refine or_congr_right ⟨?_,?_⟩
    · rintro ⟨d,n,he⟩
      obtain ⟨k,hk⟩ := names_of_edge he
      exact ⟨d,k,hk⟩
    · rintro ⟨d,k,hk⟩
      obtain ⟨n,he⟩ := hnames hk
      exact ⟨d,n,he⟩
  · intro d k d' k' i hn hn'
    obtain ⟨e,hk,hl,he⟩ := edge_of_names hn
    obtain ⟨e',hk',hl',he'⟩ := edge_of_names hn'
    obtain ⟨rfl,hname⟩ := ht.isTree.unique _ _ _ _ _ he he'
    exact ⟨rfl,Distinct.position (ht.distinct d) hk hk' hl hl' hname⟩
  · intro d k hn
    obtain ⟨n,he⟩ := hnames hn
    exact ht.isTree.root_unnamed d n he
  · -- no inode beyond the last inode block is marked
    refine ht.count.trans (congrArg Finset.card (Finset.ext fun i => ?_))
    rw [Finset.mem_filter,Finset.mem_filter,Finset.mem_range,Finset.mem_range,Bool.ne_false_iff]
    constructor
    · rintro ⟨hi,hm⟩
      exact ⟨hbig hi,(hisset i (hbig hi)).mpr hm⟩
    · rintro ⟨hi,hset⟩
      have hm := (hisset i hi).mp hset
      exact ⟨ht.bound i hm,hm⟩
  · intro d hd
    exact nrOf_of_lookup (ht.lt_of_directory hd) (ht.dot_entry d hd)
  · rw [nrOf,ht.dotdot_root]
    rfl
  · intro d k i hn hi
    obtain ⟨n,he⟩ := hnames hn
    exact nrOf_of_lookup (ht.lt_of_directory (directory_of_edge ht he)) (ht.dotdot_entry d n i he hi)
  · intro i hi
    exact (hisset i (hbig (ht.lt_of_directory hi))).mpr (ht.marked_of_directory hi)
  · intro i hi hset
    exact ht.isTree.exists_path ((hisset i hi).mp hset)
  · intro i hi hclear
    refine ht.unmarked i fun hm => ?_
    rw [(hisset i hi).mpr hm] at hclear
    cases hclear
  · rw [h.curDir_eq]
    exact h.curDir

end Facts

/-! ## Following a path -/

section Paths

variable {s : Testfs} {c : Memory} {v : Volume} {E : ℕ → List Entry}

/-- The commands that go down along a path. -/
def cdCommands (p : List CString) : List (Command × List CString) := p.map fun n => (.cd,[n])

/-- From the root the labels of a path lead to its end. -/
theorem cd_path (h : Ready s c v E) (hroot : c.curDir = 0) (hclean : c.dirty = ∅)
    {p : List CString} {i : ℕ} (hp : Path 0 (Edge E) p i) (hi : Directory v i) :
    ∃ t c', exec handleCommand (cdCommands p) s = some t ∧ Ready t c' v E ∧ c'.curDir = i ∧
      c'.dirty = ∅ := by
  induction hp with
  | root => exact ⟨s,c,rfl,h,hroot,hclean⟩
  | step hp he ih =>
    rename_i p d i n
    obtain ⟨t,c',hexec,ht,hcur,hdirty⟩ := ih (directory_of_edge h.tree he)
    obtain ⟨-,-,e,hlook,rfl⟩ := (edge_iff (h.tree.distinct d)).mp he
    rw [← hcur] at hlook
    obtain ⟨r,u,hr,c'',hu,hcur',hdirty',-⟩ := cmdCd_total ht hdirty hlook hi
    refine ⟨u,c'',?_,hu,hcur',hdirty'⟩
    have hstep : handleCommand t (.cd,[n]) = some u := Option.map_eq_some_iff.mpr ⟨(r,u),hr,rfl⟩
    rw [cdCommands,List.map_append,exec_append]
    exact Option.bind_eq_some_iff.mpr ⟨t,hexec,(exec_singleton t _).trans hstep⟩

/-- The names lead from the root of the mounted image to the current directory. -/
def LeadsBack (s : Testfs) (p : List CString) : Prop :=
  ∃ s₀ t, mount s.dev = some s₀ ∧ exec handleCommand (cdCommands p) s₀ = some t ∧
    t.curDir = s.curDir ∧ volume t = volume s

theorem leadsBack_of_path (h : Ready s c v E) {p : List CString}
    (hp : Path 0 (Edge E) p c.curDir) : LeadsBack s p := by
  obtain ⟨s₀,hmount,h₀⟩ := mount_of_ready h
  obtain ⟨t,c',hexec,ht,hcur,-⟩ := cd_path h₀ rfl rfl hp h.curDir
  refine ⟨s₀,t,hmount,hexec,?_,?_⟩
  · rw [ht.curDir_eq,hcur,h.curDir_eq]
  · rw [ht.valid.stands.volume_eq,h.valid.stands.volume_eq]

/-- The rounds of `testfs_ls` end in every directory, whatever would come after the last one. -/
theorem ls_ends (h : Ready s c v E) {d : ℕ} (hd : Directory v d) :
    Total (testfsGetInode d) s fun _ t => ∀ recursive z,
      (testfsLsThen z recursive lsFuel d 0).run t = (testfsLs recursive lsFuel d 0).run t := by
  obtain ⟨p,hp⟩ := h.tree.isTree.exists_path (h.tree.marked_of_directory hd)
  refine ((testfsGetInode_returns h.valid.stands (h.tree.lt_of_directory hd)).total
    (testfsGetInode_valid h.valid d)).mono fun _ t ht recursive z => ?_
  exact testfsLsThen_run h.tree z recursive (Counted.hold h.counted d) ht
    (rounds_lsFuel h.tree hp hd)

/-- `cmd_ls` and `cmd_lsr` return when the current directory is not dirty in memory. -/
theorem cmdLs_returns (h : Ready s c v E) (hd : ¬Dirty s s.curDir) (recursive : Bool)
    (name : CString) : Returns (cmdLsInternal recursive [name]) s := by
  rw [h.curDir_eq] at hd
  have hr := ready_of_not_dirty h hd
  refine Returns.bind (Returns.get s) (Wlp.get_iff.mpr ?_)
  rw [h.curDir_eq]
  refine Returns.bind (testfsDirNameToInodeNr_total hr.valid hr.held hr.isDir name).returns
    ((lookup_spec hr.valid hr.tree hr.curDir name).mono ?_)
  rintro r t ⟨rfl,hr'⟩
  refine Returns.ite (fun _ => Returns.pure _ t) fun hpos => ?_
  obtain ⟨e,-,rfl,hmark⟩ := hr'.resolve_left hpos
  rw [Int.toNat_natCast]
  refine Returns.bind (testfsGetInode_returns hr.valid.stands (hr.tree.bound _ hmark))
    ((testfsGetInode_valid hr.valid _).mono fun _ t1 h1 => ?_)
  have hheld := held_hold { c with dirty := ∅ } e.nr.toNat
  refine Returns.bind (inodeOf_returns h1.stands hheld) ((inodeOf_spec h1.stands _).mono ?_)
  rintro inode t2 ⟨rfl,-,hv⟩
  refine Returns.ite (fun hdir => ?_) fun _ => Returns.pure _ t2
  rw [hv] at hdir
  obtain ⟨p,hp⟩ := hr.tree.isTree.exists_path hmark
  have hcounted := Counted.hold hr.counted e.nr.toNat
  refine Returns.bind (testfsLs_returns hr.tree recursive hcounted rfl h1 hheld
    (rounds_lsFuel hr.tree hp hdir)) ((testfsLs_spec hcounted h1 recursive lsFuel _ 0).mono ?_)
  intro names t3 h3
  have hclean : ¬Dirty t3 e.nr.toNat := fun hx => h3.stands.memory.dirty_mem _ hx
  exact Returns.bind (testfsPutInode_returns h3.stands hheld hclean) fun _ t4 _ => Returns.pure _ t4

end Paths

/-- The directories form a tree between any two commands. -/
theorem directories_form_tree {s : Testfs} (h : FsReachable s) : ∃ E, IsDirectoryTree s E ∧
    Total (cmdPwd []) s (fun r t => ∃ p, r = (0,.path p) ∧ Path 0 (Edge E) p s.curDir ∧
      volume t = volume s ∧ t.curDir = s.curDir ∧ LeadsBack s p) ∧
    (∀ d, Directory (volume s) d → Total (testfsGetInode d) s fun _ t => ∀ recursive z,
      (testfsLsThen z recursive lsFuel d 0).run t = (testfsLs recursive lsFuel d 0).run t) ∧
    (¬Dirty s s.curDir → ∀ recursive name, Returns (cmdLsInternal recursive [name]) s) := by
  obtain ⟨c,E,hr⟩ := ready_of_reachable h
  refine ⟨E,isDirectoryTree_of_ready hr,?_,fun d hd => ls_ends hr hd,
    fun hd recursive name => cmdLs_returns hr hd recursive name⟩
  obtain ⟨p,hp⟩ := hr.tree.isTree.exists_path (hr.tree.marked_of_directory hr.curDir)
  rw [hr.curDir_eq]
  refine (cmdPwd_total hr hp).mono ?_
  rintro r t ⟨rfl,ht⟩
  exact ⟨p,rfl,hp,ht.valid.stands.volume_eq,ht.curDir_eq,leadsBack_of_path hr hp⟩

theorem usedTestfs_tree : ∃ E, IsDirectoryTree usedTestfs E ∧
    Total (cmdPwd []) usedTestfs fun r _ => ∃ p, r = (0,.path p) ∧ LeadsBack usedTestfs p := by
  obtain ⟨E,htree,hpwd,-⟩ := directories_form_tree usedTestfs_reachable
  refine ⟨E,htree,hpwd.mono ?_⟩
  rintro r t ⟨p,hr,-,-,-,hback⟩
  exact ⟨p,hr,hback⟩

end DirectoryTree
end OsLabs

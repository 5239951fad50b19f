import Mathlib.Data.BitVec
import Mathlib.Tactic
import OsLabs.Bytes
import OsLabs.Wlp
import OsLabs.FsModel
import OsLabs.DirModel
import OsLabs.FsVolume
import OsLabs.FsAccounts
import OsLabs.Dirents
import OsLabs.DirMap
import OsLabs.DirOps
import OsLabs.FsCreation
import OsLabs.RootedTree
import OsLabs.FsTree
import OsLabs.FsCommands
import OsLabs.FsReading

/-!
# Walking through the tree

`testfs_pwd` goes up to the root and returns the labels of the path to the current directory,
`testfs_ls` goes down and comes to an end at the leaves, and `cmd_cd` goes one edge. That they
come to an end rests on the tree: a path is shorter than the number of inodes, and a directory has
fewer entries than bytes.
-/

namespace OsLabs
namespace FsWalks

open Bytes FsModel DirModel FsVolume FsAccounts Dirents DirMap DirOps FsCreation
open RootedTree FsTree FsCommands FsReading

section Entries

variable {v : Volume} {E : ℕ → List Entry} {d i : ℕ} {n name : CString} {e : Entry}

theorem directory_of_edge (h : Tree v E) (he : Edge E d n i) : Directory v d := by
  obtain ⟨e,hm,-⟩ := he
  exact h.directory_of_mem hm

theorem toInt_ofNat_inode (hi : i < nrInodes) : (BitVec.ofNat 32 i).toInt = i := by
  have hlive := live_ofNat_inode hi dot
  rw [toInt_of_live hlive,toNat_ofNat_inode hi]

theorem marked_of_live (h : Tree v E) (he : e ∈ E d) (hl : e.live = true) :
    Marked v e.nr.toNat :=
  marked_of_lookup h ((lookup_eq_some_iff (h.distinct d)).mpr ⟨he,hl,rfl⟩)

theorem edge_of_live (he : e ∈ E d) (hl : e.live = true) (h1 : e.name ≠ dot)
    (h2 : e.name ≠ dotdot) : Edge E d e.name e.nr.toNat :=
  ⟨e,he,hl,h1,h2,rfl,rfl⟩

/-- The first entry with the number of an inode below a directory is the one that names it. -/
theorem find_edge (h : Tree v E) (he : Edge E d n i) :
    ∃ e, (E d).find? (fun e => decide (e.nr.toInt = (i : ℤ))) = some e ∧ e.name = n := by
  have hd := directory_of_edge h he
  cases hf : (E d).find? (fun e => decide (e.nr.toInt = (i : ℤ))) with
  | none =>
    obtain ⟨e,hm,hl,-,-,-,hi⟩ := he
    have hno := List.find?_eq_none.mp hf e hm
    rw [decide_eq_true_eq,toInt_of_live hl,hi] at hno
    exact absurd rfl hno
  | some x =>
    have hx := List.find?_some hf
    have hm := List.mem_of_find?_eq_some hf
    rw [decide_eq_true_eq] at hx
    have hl : x.live = true := decide_eq_true (by omega)
    have hnr : x.nr.toNat = i := by
      rw [toInt_of_live hl] at hx
      exact_mod_cast hx
    have hlook := (lookup_eq_some_iff (h.distinct d)).mpr ⟨hm,hl,rfl⟩
    refine ⟨x,rfl,?_⟩
    by_cases h1 : x.name = dot
    · -- "." names the directory itself
      rw [h1,h.dot_entry d hd,Option.some.injEq] at hlook
      rw [← hlook,toNat_ofNat_inode (h.lt_of_directory hd)] at hnr
      exact absurd hnr (h.isTree.ne_of_edge he)
    · by_cases h2 : x.name = dotdot
      · -- ".." names a directory above
        obtain ⟨p,hp,hcase⟩ := h.exists_lookup_dotdot hd
        have hmark : Marked v p := by
          rcases hcase with ⟨-,rfl⟩ | ⟨m,hm⟩
          · exact h.isTree.node_root
          · exact h.isTree.source p m d hm
        rw [h2,hp,Option.some.injEq] at hlook
        rw [← hlook,toNat_ofNat_inode (h.bound p hmark)] at hnr
        subst hnr
        rcases hcase with ⟨-,rfl⟩ | ⟨m,hm⟩
        · exact absurd he (h.isTree.root_unnamed d n)
        · exact absurd (Relation.TransGen.tail (Relation.TransGen.single ⟨n,he⟩) ⟨m,hm⟩)
            h.isTree.acyclic
      · have hedge := edge_of_live hm hl h1 h2
        rw [hnr] at hedge
        exact (h.isTree.unique d x.name d n i hedge he).2

theorem length_lt (h : Tree v E) {p : List CString} (hp : Path 0 (Edge E) p i) :
    p.length < nrInodes := by
  have hlt := hp.length_lt_card h.isTree (S := Finset.range nrInodes)
    fun x hx => Finset.mem_range.mpr (h.bound x hx)
  rwa [Finset.card_range] at hlt

theorem length_entries_lt (h : IsDir v d (E d)) : (E d).length < 2^25 := by
  have h1 := length_le_sizes (E d)
  have h2 := h.laid.stop_eq
  have h3 := h.size_le
  simp only [nrLogical,blockSize] at h3
  omega

end Entries

/-! ## The way to the root -/

section Pwd

variable {s : Testfs} {c : Memory} {v : Volume} {E : ℕ → List Entry}

/-- `testfs_pwd` returns the path to a directory, as long as no directory above is dirty. -/
theorem testfsPwd_total (h : Tree v E) (hc : c.Counted) (hv : Valid s c v) {p : List CString} {i : ℕ}
    (hp : Path 0 (Edge E) p i) (hdir : Directory v i) (hi : Held c i)
    (hclean : ∀ q d, Path 0 (Edge E) q d → q.length < p.length → d ∉ c.dirty) {n : ℕ}
    (hn : p.length < n) :
    Total (testfsPwd n i) s (fun r t => r = p ∧ Valid t c v) := by
  induction hp generalizing s c n with
  | root =>
    obtain ⟨n,rfl⟩ := Nat.exists_eq_add_of_lt hn
    refine Total.bind
      ((testfsDirNameToInodeNr_total hv hi (h.isDir 0 hdir) dotdot).mono ?_)
    rintro r t ⟨rfl,hr⟩
    rw [h.dotdot_root] at hr
    obtain rfl : r = 0 := hr
    refine Total.bind (Total.guard le_rfl ?_)
    rw [if_pos Nat.cast_zero.symm]
    exact Total.pure ⟨rfl,hv⟩
  | step hp he ih =>
    rename_i p d i name
    obtain ⟨n,rfl⟩ := Nat.exists_eq_add_of_lt hn
    rw [List.length_append,List.length_singleton] at hclean ⊢
    have hd := directory_of_edge h he
    have hlt := h.lt_of_directory hd
    have hne := h.isTree.ne_of_edge he
    refine Total.bind
      ((testfsDirNameToInodeNr_total hv hi (h.isDir i hdir) dotdot).mono ?_)
    rintro r t ⟨rfl,hr⟩
    rw [h.dotdot_entry d name i he hdir] at hr
    obtain rfl : r = d := Eq.trans hr (toInt_ofNat_inode hlt)
    refine Total.bind (Total.guard (Int.natCast_nonneg d) ?_)
    rw [if_neg (by exact_mod_cast hne),Int.toNat_natCast]
    refine Total.bind
      (((testfsGetInode_returns hv.stands hlt).total (testfsGetInode_valid hv d)).mono ?_)
    intro _ t1 h1
    refine Total.bind
      ((testfsFindDirent_total h1 (held_hold c d) (h.isDir d hd) i).mono ?_)
    rintro r t2 ⟨rfl,rfl⟩
    obtain ⟨e,hfind,hname⟩ := find_edge h he
    rw [hfind]
    refine Total.bind (Total.lift rfl ?_)
    refine Total.bind ((ih (Counted.hold hc d) h1 hd (held_hold c d) (fun q x hq hlen =>
      hclean q x hq (by omega)) (by omega)).mono ?_)
    rintro r t3 ⟨rfl,h3⟩
    have hdirty : ¬Dirty t3 d := fun hx =>
      hclean _ d hp (Nat.lt_succ_self _) (h3.stands.memory.dirty_mem d hx)
    refine Total.bind (((testfsPutInode_returns h3.stands (held_hold c d) hdirty).total
      (testfsPutInode_valid h3 d)).mono ?_)
    intro _ t4 h4
    refine Total.bind (Total.lift (toCString_bytes e.name) ?_)
    rw [hname]
    exact Total.pure ⟨rfl,Valid.of_release hc h4⟩

/-- `cmd_pwd` prints the path to the current directory. -/
theorem cmdPwd_total (h : Ready s c v E) {p : List CString} (hp : Path 0 (Edge E) p c.curDir) :
    Total (cmdPwd []) s (fun r t => r = (0,.path p) ∧ Ready t c v E) := by
  refine Total.bind (Total.get ?_)
  rw [h.curDir_eq]
  refine Total.bind ((testfsPwd_total h.tree h.counted h.valid hp h.curDir h.held ?_ ?_).mono ?_)
  · intro q d hq hlen hd
    obtain rfl : d = c.curDir := h.dirty hd
    rw [hq.unique h.tree.isTree hp] at hlen
    exact lt_irrefl _ hlen
  · have := length_lt h.tree hp
    simp only [nrInodes,nrInodeBlocks,inodesPerBlock] at *
    omega
  · rintro r t ⟨rfl,ht⟩
    exact Total.pure ⟨rfl,h.unchanged ht (Same.refl v)⟩

end Pwd

/-! ## Down the tree -/

section Ls

variable {s : Testfs} {c : Memory} {v : Volume} {E : ℕ → List Entry} {p : List CString} {i o n : ℕ}
  {rest : List Entry}

/-- `testfs_ls` with other programs in place of the rounds after the last one. -/
def testfsLsThen (z : ℕ → ℤ → FsM (List (CString × Bool))) (recursive : Bool) :
    ℕ → ℕ → ℤ → FsM (List (CString × Bool))
  | 0, i, offset => z i offset
  | n+1, i, offset => do
    match ← testfsNextDirent i offset with
    | none => return []
    | some (d,next) =>
      if d.live = false then testfsLsThen z recursive n i next
      else do
        let cin := d.dInodeNr.toNat
        testfsGetInode cin
        let inode ← inodeOf cin
        let name ← StateT.lift (toCString d.dName)
        let isDir := decide (inode.data.iType = InodeType.dir.code)
        if recursive ∧ isDir ∧ name ≠ dot ∧ name ≠ dotdot then do
          let below ← testfsLsThen z recursive n cin 0
          testfsPutInode cin
          let rest ← testfsLsThen z recursive n i next
          return (name,isDir)::(below ++ rest)
        else do
          testfsPutInode cin
          let rest ← testfsLsThen z recursive n i next
          return (name,isDir)::rest

/-- The rounds that are left for the directory at the end of a path, from an offset on. -/
structure Rounds (v : Volume) (E : ℕ → List Entry) (p : List CString) (i o : ℕ)
    (rest : List Entry) (n : ℕ) : Prop where
  path : Path 0 (Edge E) p i
  isDir : Directory v i
  laid : Laid (contents v i) o rest (v.inode i).iSize.toNat
  subset : rest ⊆ E i
  enough : (nrInodes - p.length)*2^25 + rest.length < n

theorem Rounds.next {e : Entry} (h : Rounds v E p i o (e::rest) (n+1)) :
    Rounds v E p i (o + e.size) rest n := by
  have henough := h.enough
  rw [List.length_cons] at henough
  exact ⟨h.path,h.isDir,h.laid.2.2,fun x hx => h.subset (List.mem_cons_of_mem e hx),by omega⟩

/-- A directory below has rounds for all of its entries. -/
theorem Rounds.below {e : Entry} (ht : Tree v E) (h : Rounds v E p i o (e::rest) (n+1))
    (hl : e.live = true) (h1 : e.name ≠ dot) (h2 : e.name ≠ dotdot)
    (hd : Directory v e.nr.toNat) :
    Rounds v E (p ++ [e.name]) e.nr.toNat 0 (E e.nr.toNat) n := by
  have hedge := edge_of_live (h.subset List.mem_cons_self) hl h1 h2
  have hpath := Path.step h.path hedge
  have hisDir := ht.isDir _ hd
  have hlen := length_lt ht hpath
  have hentries := length_entries_lt hisDir
  have henough := h.enough
  refine ⟨hpath,hd,hisDir.laid,fun x hx => hx,?_⟩
  rw [List.length_append,List.length_singleton] at hlen ⊢
  rw [List.length_cons] at henough
  have hsplit : nrInodes - p.length = nrInodes - (p.length + 1) + 1 := by omega
  rw [hsplit,Nat.add_mul,Nat.one_mul] at henough
  generalize (nrInodes - (p.length + 1))*2^25 = k at henough ⊢
  omega

/-- `lsFuel` is enough for every directory. -/
theorem rounds_lsFuel (ht : Tree v E) (hp : Path 0 (Edge E) p i) (hd : Directory v i) :
    Rounds v E p i 0 (E i) lsFuel := by
  have hisDir := ht.isDir _ hd
  have hentries := length_entries_lt hisDir
  refine ⟨hp,hd,hisDir.laid,fun x hx => hx,?_⟩
  have hle : nrInodes - p.length ≤ 2^14 := by
    simp only [nrInodes]
    omega
  have hmul := Nat.mul_le_mul_right (2^25) hle
  simp only [lsFuel]
  omega

/-- What `testfs_ls` finds at the offset of an entry, or at the end. -/
theorem Rounds.nextDirent_spec (ht : Tree v E) (h : Rounds v E p i o rest n) (hv : Valid s c v) :
    Wlp (testfsNextDirent i o) s (fun r t => t = s ∧ match rest with
      | [] => r = none
      | e::_ => r = some (e.toDirent,((o + e.size : ℕ) : ℤ))) := by
  have hsize := (ht.isDir i h.isDir).size_le
  cases rest with
  | nil =>
    obtain rfl : o = (v.inode i).iSize.toNat := h.laid
    exact testfsNextDirent_nil hv.stands hsize
  | cons e rest => exact testfsNextDirent_cons hv.stands hv.accounts hsize h.laid

/-- The rounds of `testfs_ls` come to an end, also when one of its assertions fails. -/
theorem testfsLsThen_run (ht : Tree v E) (z : ℕ → ℤ → FsM (List (CString × Bool)))
    (recursive : Bool) (hc : c.Counted) (hv : Valid s c v) (h : Rounds v E p i o rest n) :
    (testfsLsThen z recursive n i o).run s = (testfsLs recursive n i o).run s := by
  induction n generalizing s c p i o rest with
  | zero =>
    have := h.enough
    omega
  | succ n ih =>
    rw [testfsLsThen,testfsLs,testfsLsWith]
    refine run_bind_congr rfl ((h.nextDirent_spec ht hv).mono ?_)
    rintro r t ⟨rfl,hr⟩
    cases rest with
    | nil =>
      obtain rfl : r = none := hr
      rfl
    | cons e rest =>
      obtain rfl : r = some (e.toDirent,((o + e.size : ℕ) : ℤ)) := hr
      simp only
      rw [Entry.live_toDirent]
      by_cases hl : e.live = false
      · rw [if_pos hl,if_pos hl]
        exact ih hc hv h.next
      · rw [if_neg hl,if_neg hl]
        refine run_bind_congr rfl ((testfsGetInode_valid hv _).mono fun _ t1 h1 => ?_)
        refine run_bind_congr rfl ((inodeOf_spec h1.stands _).mono ?_)
        rintro inode t2 ⟨rfl,-,hinode⟩
        refine run_bind_congr rfl (Wlp.lift_iff.mpr fun name hname => ?_)
        obtain rfl : e.name = name := Option.some.inj ((toCString_bytes e.name).symm.trans hname)
        -- after the inode has been dropped the rest of the directory is listed
        have hrest : ∀ t (f : List (CString × Bool) → List (CString × Bool)),
            Valid t (c.hold e.nr.toNat) v →
            (testfsPutInode e.nr.toNat >>= fun _ =>
              testfsLsThen z recursive n i ((o + e.size : ℕ) : ℤ) >>= fun l =>
                pure (f l) : FsM _).run t =
            (testfsPutInode e.nr.toNat >>= fun _ =>
              testfsLs recursive n i ((o + e.size : ℕ) : ℤ) >>= fun l => pure (f l) : FsM _).run t := by
          intro t f h3
          refine run_bind_congr rfl ((testfsPutInode_valid h3 _).mono fun _ t4 h4 => ?_)
          exact run_bind_congr (ih hc (Valid.of_release hc h4) h.next) fun _ _ _ => rfl
        split
        · rename_i hbelow
          obtain ⟨-,hdir,h1',h2'⟩ := hbelow
          rw [decide_eq_true_eq,hinode] at hdir
          have hround := h.below ht (by simpa using hl) h1' h2' hdir
          refine run_bind_congr (ih (Counted.hold hc _) h1 hround) ?_
          refine (testfsLs_spec (Counted.hold hc _) h1 recursive n _ 0).mono fun below t3 h3 => ?_
          exact hrest t3 (fun l => (e.name,decide (inode.data.iType = InodeType.dir.code))::(below ++ l)) h3
        · exact hrest _ (fun l => (e.name,decide (inode.data.iType = InodeType.dir.code))::l) h1

theorem testfsLs_returns (ht : Tree v E) (recursive : Bool) (hc : c.Counted) (hclean : c.dirty = ∅)
    (hv : Valid s c v) (hi : Held c i) (h : Rounds v E p i o rest n) :
    Returns (testfsLs recursive n i o) s := by
  induction n generalizing s c p i o rest with
  | zero =>
    have := h.enough
    omega
  | succ n ih =>
    have hd := ht.isDir i h.isDir
    cases rest with
    | nil =>
      obtain rfl : o = (v.inode i).iSize.toNat := h.laid
      refine Returns.bind (testfsNextDirent_total_nil hv hi hd).returns ?_
      refine (testfsNextDirent_nil hv.stands hd.size_le).mono ?_
      rintro r t ⟨rfl,rfl⟩
      exact Returns.pure _ t
    | cons e rest =>
      refine Returns.bind (testfsNextDirent_total_cons hv hi hd h.laid).returns ?_
      refine (testfsNextDirent_cons hv.stands hv.accounts hd.size_le h.laid).mono ?_
      rintro r t ⟨rfl,rfl⟩
      refine Returns.ite (fun _ => ih hc hclean hv hi h.next) fun hl => ?_
      rw [Entry.live_toDirent,Bool.not_eq_false] at hl
      have hmark := marked_of_live ht (h.subset List.mem_cons_self) hl
      have hheld := held_hold c e.nr.toNat
      refine Returns.bind (testfsGetInode_returns hv.stands (ht.bound _ hmark))
        ((testfsGetInode_valid hv _).mono fun _ t1 h1 => ?_)
      refine Returns.bind (inodeOf_returns h1.stands hheld) ((inodeOf_spec h1.stands _).mono ?_)
      rintro inode t2 ⟨rfl,-,hinode⟩
      refine Returns.bind (Returns.lift (toCString_bytes e.name) t2)
        (Wlp.lift_iff.mpr fun name hname => ?_)
      obtain rfl : e.name = name := Option.some.inj ((toCString_bytes e.name).symm.trans hname)
      have hrest : ∀ t (f : List (CString × Bool) → List (CString × Bool)),
          Valid t (c.hold e.nr.toNat) v →
          Returns (testfsPutInode e.nr.toNat >>= fun _ =>
            testfsLs recursive n i ((o + e.size : ℕ) : ℤ) >>= fun l => pure (f l) : FsM _) t := by
        intro t f h3
        have hnot : ¬Dirty t e.nr.toNat := fun hx => by
          have hmem := h3.stands.memory.dirty_mem _ hx
          rw [show (c.hold e.nr.toNat).dirty = ∅ from hclean] at hmem
          exact hmem
        refine Returns.bind (testfsPutInode_returns h3.stands hheld hnot)
          ((testfsPutInode_valid h3 _).mono fun _ t4 h4 => ?_)
        exact Returns.bind (ih hc hclean (Valid.of_release hc h4) hi h.next)
          fun _ t5 _ => Returns.pure _ t5
      refine Returns.ite (fun hbelow => ?_) fun _ => hrest t2 _ h1
      obtain ⟨-,hdir,h1',h2'⟩ := hbelow
      rw [decide_eq_true_eq,hinode] at hdir
      have hround := h.below ht hl h1' h2' hdir
      refine Returns.bind (ih (Counted.hold hc _) hclean h1 hheld hround) ?_
      refine (testfsLs_spec (Counted.hold hc _) h1 recursive n _ 0).mono fun below t3 h3 => ?_
      exact hrest t3 _ h3

end Ls

/-! ## Changing the directory -/

section Cd

variable {s : Testfs} {c : Memory} {v : Volume} {E : ℕ → List Entry}

theorem ready_of_not_dirty (h : Ready s c v E) (hd : ¬Dirty s c.curDir) :
    Ready s { c with dirty := ∅ } v E := by
  have hm : InMemory s { c with dirty := ∅ } := by
    refine ⟨h.valid.stands.memory.curDir_eq,h.valid.stands.memory.size_le,
      h.valid.stands.memory.count_eq,fun i hi => ?_⟩
    obtain rfl : i = c.curDir := h.dirty (h.valid.stands.memory.dirty_mem i hi)
    exact absurd hi hd
  exact { h with
    valid := ⟨⟨h.valid.stands.coherent,h.valid.stands.volume_eq,hm⟩,h.valid.accounts,h.valid.backed⟩
    dirty := Set.empty_subset _ }

theorem cmdCd_total (h : Ready s c v E) (hclean : c.dirty = ∅) {name : CString} {e : Entry}
    (he : lookup name (E c.curDir) = some e) (hdir : Directory v e.nr.toNat) :
    Total (cmdCd [name]) s (fun _ t => ∃ c', Ready t c' v E ∧ c'.curDir = e.nr.toNat ∧
      c'.dirty = ∅ ∧ c'.count = ((c.hold e.nr.toNat).release c.curDir).count) := by
  refine (Returns.total ?_ (cmdCd_spec h name)).mono ?_
  · refine Returns.bind (Returns.get s) (Wlp.get_iff.mpr ?_)
    rw [h.curDir_eq]
    have hlook := testfsDirNameToInodeNr_total h.valid h.held h.isDir name
    refine Returns.bind hlook.returns
      ((testfsDirNameToInodeNr_spec h.valid.stands h.valid.accounts h.isDir name).mono ?_)
    rintro r t ⟨rfl,hr⟩
    rw [he] at hr
    obtain rfl : r = e.nr.toNat := Eq.trans hr (toInt_of_live (lookup_some he).2.1)
    refine Returns.ite (fun _ => Returns.pure _ t) fun _ => ?_
    rw [Int.toNat_natCast]
    refine Returns.bind (testfsGetInode_returns h.valid.stands (h.tree.lt_of_directory hdir))
      ((testfsGetInode_valid h.valid _).mono fun _ t1 h1 => ?_)
    refine Returns.bind (inodeOf_returns h1.stands (held_hold ..))
      ((inodeOf_spec h1.stands _).mono ?_)
    rintro inode t2 ⟨rfl,-,hv⟩
    rw [hv]
    refine Returns.ite (fun hc => absurd hdir hc) fun _ => ?_
    have hnot : ¬Dirty t2 c.curDir := fun hx => by
      have hmem := h1.stands.memory.dirty_mem _ hx
      rw [show (c.hold e.nr.toNat).dirty = ∅ from hclean] at hmem
      exact hmem
    refine Returns.bind (testfsPutInode_returns h1.stands (Held.hold h.held _) hnot) ?_
    intro _ t3 _
    exact Returns.bind (Returns.modify _ t3) fun _ t4 _ => Returns.pure _ t4
  · rintro r t (⟨-,-,hno⟩ | ⟨-,e',c',he',ht,hcur,hdirty,hcount⟩)
    · exact absurd hdir (hno e he)
    · obtain rfl : e = e' := Option.some.inj (he.symm.trans he')
      exact ⟨c',ht,hcur,hdirty,hcount⟩

end Cd

end FsWalks
end OsLabs

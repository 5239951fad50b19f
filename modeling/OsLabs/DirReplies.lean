import Mathlib.Data.BitVec
import Mathlib.Tactic
import OsLabs.Bytes
import OsLabs.Wlp
import OsLabs.Holdings
import OsLabs.FsModel
import OsLabs.DirModel
import OsLabs.FsVolume
import OsLabs.FsAccounts
import OsLabs.FsRemoval
import OsLabs.Dirents
import OsLabs.DirMap
import OsLabs.DirOps
import OsLabs.FsCreation
import OsLabs.RootedTree
import OsLabs.FsTree
import OsLabs.FsCommands
import OsLabs.FsReading
import OsLabs.FsWriting
import OsLabs.FsFreeing
import OsLabs.FsSessions
import OsLabs.WriteEffects
import OsLabs.FsGrowth

/-!
# What removing a name answers

`testfs_remove_dirent` returns whatever the name is. It refuses the two names that every directory
has, a name that is not there and a directory with entries of its own, each with its own error, and
otherwise it answers with the inode. Then `cmd_rm` returns 0, if the blocks of the inode lie below
the bound that its size gives.
-/

namespace OsLabs
namespace DirReplies

open Bytes FsModel DirModel FsVolume FsAccounts FsRemoval Dirents DirMap DirOps FsCreation
open Holdings FsTree FsCommands FsReading FsWriting FsFreeing FsSessions WriteEffects FsGrowth

/-- Why a name cannot be removed from the directory `d`. -/
inductive Refusal (v : Volume) (E : ℕ → List Entry) (d : ℕ) (name : CString) : Errno → Prop
  | dots (h : name = dot ∨ name = dotdot) : Refusal v E d name .inval
  | absent (h1 : name ≠ dot) (h2 : name ≠ dotdot) (h : lookup name (E d) = none) :
      Refusal v E d name .noent
  | notEmpty {e : Entry} (h1 : name ≠ dot) (h2 : name ≠ dotdot) (h : lookup name (E d) = some e)
      (hno : ¬Removable v e.nr.toNat (E e.nr.toNat)) : Refusal v E d name .notempty

/-- The name can be removed: it has this entry. -/
structure Leaving (v : Volume) (E : ℕ → List Entry) (d : ℕ) (name : CString) (e : Entry) : Prop where
  ne_dot : name ≠ dot
  ne_dotdot : name ≠ dotdot
  lookup : lookup name (E d) = some e
  removable : Removable v e.nr.toNat (E e.nr.toNat)

/-- The blocks of the inode lie below the bound that its size gives. -/
def Freeable (v : Volume) (i : ℕ) : Prop :=
  0 ≤ eBlockNr (v.inode i).iSize.toInt ∧ Covered v i (eBlockNr (v.inode i).iSize.toInt)

section Entries

variable {s t : Testfs} {c : Memory} {v w : Volume} {E : ℕ → List Entry} {d i n : ℕ}
  {es pre post : List Entry} {name : CString} {e : Entry} {err : Errno}

theorem Errno.ret_neg (err : Errno) : err.ret < 0 := by cases err <;> decide

/-- A name that leaves the directory is not refused. -/
theorem Leaving.not_refusal (h : Leaving v E d name e) : ¬Refusal v E d name err := by
  rintro (⟨hname⟩ | ⟨-,-,hno⟩ | ⟨-,-,hlook,hno⟩)
  · exact hname.elim h.ne_dot h.ne_dotdot
  · rw [h.lookup] at hno
    cases hno
  · rw [h.lookup,Option.some.injEq] at hlook
    subst hlook
    exact hno h.removable

theorem Refusal.unique {err' : Errno} (h : Refusal v E d name err) (h' : Refusal v E d name err') :
    err = err' := by
  rcases h with ⟨hname⟩ | ⟨h1,h2,hno⟩ | ⟨h1,h2,hlook,-⟩
  · rcases h' with ⟨-⟩ | ⟨h1,h2,-⟩ | ⟨h1,h2,-,-⟩
    · rfl
    · exact (hname.elim h1 h2).elim
    · exact (hname.elim h1 h2).elim
  · rcases h' with ⟨hname⟩ | ⟨-,-,-⟩ | ⟨-,-,hlook,-⟩
    · exact (hname.elim h1 h2).elim
    · rfl
    · rw [hno] at hlook
      cases hlook
  · rcases h' with ⟨hname⟩ | ⟨-,-,hno⟩ | ⟨-,-,-,-⟩
    · exact (hname.elim h1 h2).elim
    · rw [hlook] at hno
      cases hno
    · rfl

theorem Leaving.edge (h : Leaving v E d name e) (ht : Tree v E) : Edge E d name e.nr.toNat :=
  (edge_iff (ht.distinct d)).mpr ⟨h.ne_dot,h.ne_dotdot,e,h.lookup,rfl⟩

theorem freeable_of_ref_zero (hz : ∀ l, ref v i l = 0) (h0 : (v.inode i).iSize = 0) :
    Freeable v i := by
  rw [Freeable,h0]
  exact ⟨by decide,fun l hl => absurd (hz l) hl⟩

/-- A block that exists is filled without a new one. -/
theorem ref_eq_of_fills (h : Fills v w i n) (hn : ref v i (slotOf n) ≠ 0) : ref w i = ref v i := by
  funext l
  by_cases hl : ref v i l = 0
  · rw [hl]
    by_contra hw
    rcases (h.slots l).mp hw with hc | rfl | ⟨rfl,hge⟩
    · exact hc hl
    · exact hn hl
    · rw [slotOf_entry (Nat.not_lt.mpr hge),ref,if_pos ((indirect_eq_zero_iff i).mp hl)] at hn
      exact hn rfl
  · exact h.kept l hl

theorem testfsRemoveDirentAllowed_total (hc : c.Counted) (h : Valid s c v) (hlt : i < nrInodes)
    (hclean : i ∉ c.dirty) (hi : Directory v i → IsDir v i es) :
    Total (testfsRemoveDirentAllowed i) s fun r t => Valid t c v ∧
      ((¬Removable v i es ∧ r = Errno.notempty.ret) ∨ (Removable v i es ∧ r = 0)) := by
  have hheld : Held (c.hold i) i := held_hold c i
  have hput : ∀ {t}, Valid t (c.hold i) v → Total (testfsPutInode i) t fun _ u => Valid u c v := by
    intro t ht
    refine ((testfsPutInode_returns ht.stands hheld fun hd =>
      hclean (ht.stands.memory.dirty_mem i hd)).total (testfsPutInode_valid ht i)).mono ?_
    exact fun _ _ hu => Valid.of_release hc hu
  refine Total.bind (((testfsGetInode_returns h.stands hlt).total (testfsGetInode_valid h i)).mono
    fun _ t1 h1 => ?_)
  refine Total.bind (((inodeOf_returns h1.stands hheld).total (inodeOf_spec h1.stands i)).mono ?_)
  rintro inode t2 ⟨rfl,-,hv⟩
  rw [hv]
  by_cases hdir : Directory v i
  · rw [if_neg (not_not.mpr hdir)]
    refine Total.bind ((scanDir_total h1 hheld (hi hdir) isChild_toDirent).mono ?_)
    rintro r t3 ⟨rfl,rfl⟩
    refine Total.bind ((hput h1).mono fun _ t4 h4 => ?_)
    rw [firstEntry_fst]
    cases hfind : es.find? Entry.isChild with
    | none =>
      refine Total.pure ⟨h4,.inr ⟨fun _ e he => ?_,rfl⟩⟩
      exact Bool.not_eq_true _ ▸ List.find?_eq_none.mp hfind e he
    | some e =>
      refine Total.pure ⟨h4,.inl ⟨fun hrem => ?_,rfl⟩⟩
      have hchild := List.find?_some hfind
      rw [hrem hdir e (List.mem_of_find?_eq_some hfind)] at hchild
      cases hchild
  · rw [if_pos hdir]
    exact Total.bind ((hput h1).mono fun _ t3 h3 =>
      Total.pure ⟨h3,.inr ⟨fun hc => absurd hc hdir,rfl⟩⟩)

theorem testfsWriteData_entry (hm : d ∈ c.dirty) (h : Valid s c v) (hheld : Held c d)
    (hd : IsDir v d es) (hes : es = pre ++ e::post) (nr : BitVec 32) :
    Total (testfsWriteData d (Entry.bytes { e with nr }) (sizes pre : ℕ)) s
      fun r t => 0 ≤ r ∧ ref (volume t) d = ref v d := by
  have hlaid := hd.laid
  have hstop := hlaid.stop_eq
  rw [hes] at hlaid hstop
  rw [Nat.zero_add,sizes_append,sizes_cons] at hstop
  have hat := (laid_append.mp hlaid).2
  rw [Nat.zero_add] at hat
  have hpos := e.size_pos
  have hend := hd.size_le
  have hn := (offset_arith (o := sizes pre) (by omega)).2.2
  have href := ref_of_laid hat
  have hfits : Fits v d (sizes pre/blockSize) :=
    Fits.of_ref h.accounts (Nat.div_lt_of_lt_mul (by rw [Nat.mul_comm]; omega)) href
  refine (testfsWriteData_total hm h hheld (Entry.bytes { e with nr }) hn ?_).mono ?_
  · rw [Entry.length_bytes]
    exact hat.2.1
  · rintro r t (⟨-,hno,-⟩ | ⟨rfl,-,hfills⟩)
    · exact absurd hfits hno
    · exact ⟨Int.natCast_nonneg _,ref_eq_of_fills hfills href⟩

/-- The name of an entry in a directory is as long as the entry says. -/
theorem length_dName (hd : IsDir v d es) (he : e ∈ es) :
    e.toDirent.dName.length = e.toDirent.dNameLen.toNat := by
  have hlen := len_lt_of_laid hd.laid he
  simp only [Entry.toDirent,CString.length_bytes,BitVec.toNat_ofNat,Entry.len] at hlen ⊢
  omega

/-- What `testfs_remove_dirent` answers: why the name cannot be removed, or the inode. -/
theorem testfsRemoveDirent_total (h : Ready s c v E) (hm : c.curDir ∈ c.dirty) (name : CString) :
    Total (testfsRemoveDirent c.curDir name) s fun r t =>
      (∃ err, Refusal v E c.curDir name err ∧ r = err.ret) ∨
      ∃ e, Leaving v E c.curDir name e ∧ r = e.nr.toNat ∧
        ref (volume t) c.curDir = ref v c.curDir := by
  rw [testfsRemoveDirent,testfsRemoveDirentWith]
  by_cases hname : name = dot ∨ name = dotdot
  · rw [if_pos hname]
    exact Total.pure (.inl ⟨_,.dots hname,rfl⟩)
  rw [if_neg hname]
  obtain ⟨h1,h2⟩ := not_or.mp hname
  refine Total.bind ((scanDir_total h.valid h.held h.isDir (isEntry_toDirent name)).mono ?_)
  rintro r t ⟨rfl,rfl⟩
  cases hfirst : firstEntry (Entry.isNamed name) (E c.curDir) 0 with
  | mk f k =>
  have hlook : lookup name (E c.curDir) = f := by rw [lookup,← firstEntry_fst _ _ 0,hfirst]
  cases f with
  | none => exact Total.pure (.inl ⟨_,.absent h1 h2 hlook,rfl⟩)
  | some e =>
    obtain ⟨pre,post,hes,-,-,hk⟩ := firstEntry_some hfirst
    rw [Nat.zero_add] at hk
    subst hk
    have hedge : Edge E c.curDir name e.nr.toNat :=
      (edge_iff (h.tree.distinct _)).mpr ⟨h1,h2,e,hlook,rfl⟩
    have hclean : e.nr.toNat ∉ c.dirty := fun hd =>
      h.tree.isTree.ne_of_edge hedge (h.dirty hd).symm
    refine Total.bind ((testfsRemoveDirentAllowed_total h.counted h.valid
      (h.tree.bound _ (marked_of_lookup h.tree hlook)) hclean (h.tree.isDir _)).mono ?_)
    rintro r t1 ⟨ht1,⟨hno,rfl⟩ | ⟨hrem,rfl⟩⟩
    · rw [if_pos (by decide)]
      exact Total.pure (.inl ⟨_,.notEmpty h1 h2 hlook hno,rfl⟩)
    · rw [if_neg (lt_irrefl 0)]
      have hlen := length_dName h.isDir (lookup_some hlook).1
      refine Total.bind (Total.guard hlen (Total.bind
        ((testfsWriteData_entry hm ht1 h.held h.isDir hes invalidInodeNr).mono ?_)))
      rintro r t2 ⟨hr,href⟩
      rw [if_pos hr]
      exact Total.pure (.inr ⟨e,⟨h1,h2,hlook,hrem⟩,toInt_of_live (lookup_some hlook).2.1,href⟩)

theorem refusal_or_leaving (v : Volume) (E : ℕ → List Entry) (d : ℕ) (name : CString) :
    (∃ err, Refusal v E d name err) ∨ ∃ e, Leaving v E d name e := by
  by_cases hname : name = dot ∨ name = dotdot
  · exact .inl ⟨_,.dots hname⟩
  obtain ⟨h1,h2⟩ := not_or.mp hname
  cases hlook : lookup name (E d) with
  | none => exact .inl ⟨_,.absent h1 h2 hlook⟩
  | some e =>
    by_cases hrem : Removable v e.nr.toNat (E e.nr.toNat)
    · exact .inr ⟨e,h1,h2,hlook,hrem⟩
    · exact .inl ⟨_,.notEmpty h1 h2 hlook hrem⟩

/-- The name that can be removed is removed from its directory. -/
theorem Leaving.removeDirent (hl : Leaving v E c.curDir name e) (h : Ready s c v E)
    (hm : c.curDir ∈ c.dirty) : Total (testfsRemoveDirent c.curDir name) s fun r t =>
      r = e.nr.toNat ∧ ∃ w, Valid t c w ∧ Frame c.curDir v w ∧ ref w c.curDir = ref v c.curDir := by
  have hspec : Wlp (testfsRemoveDirent c.curDir name) s _ :=
    testfsRemoveDirent_spec hm h.counted h.valid h.isDir h.tree.isDir
  refine ((testfsRemoveDirent_total h hm name).and_wlp hspec).mono ?_
  rintro r t ⟨⟨err,hno,-⟩ | ⟨e',hl',rfl,href⟩,hcase⟩
  · exact absurd hno hl.not_refusal
  · obtain rfl : e = e' := Option.some.inj (hl.lookup.symm.trans hl'.lookup)
    obtain ⟨w,-,-,-,-,-,-,hw,hrw⟩ := hcase.resolve_left fun hc => by
      have := hc.1
      omega
    rw [hw.stands.volume_eq] at href
    exact ⟨rfl,w,hw,hrw.frame,href⟩

end Entries

/-! ## The commands -/

section Commands

variable {s t : Testfs} {c : Memory} {v w : Volume} {E : ℕ → List Entry} {name : CString}
  {e : Entry} {err : Errno}

/-- `cmd_create` and `cmd_mkdir` print nothing. -/
theorem cmdCreateType_output (type : InodeType) (name : CString) (s : Testfs) :
    Wlp (cmdCreateType type [name]) s fun r _ => r.2 = .nothing := by
  simp only [cmdCreateType,cmdCreateTypeWith,Wlp.bind_iff,Wlp.get_iff,monadLift_self]
  intro _ _ _
  exact Wlp.pure_iff.mpr rfl

theorem cmdRm_refused (h : Ready s c v E) (hno : Refusal v E c.curDir name err) :
    Total (cmdRm [name]) s fun r t => r = fails err ∧ Ready t (c.touch c.curDir) v E := by
  suffices hret : Total (cmdRm [name]) s fun r _ => r = fails err by
    refine (hret.and_wlp (cmdRm_spec h name)).mono ?_
    rintro r t ⟨rfl,⟨-,ht⟩ | ⟨hr,-⟩⟩
    · exact ⟨rfl,ht⟩
    · exact absurd hr (Errno.ret_neg err).ne
  refine Total.bind (Total.get ?_)
  rw [h.curDir_eq]
  refine Total.bind ((testfsRemoveDirent_total h.touch (Set.mem_insert ..) name).mono ?_)
  rintro r t (⟨err',hno',rfl⟩ | ⟨e,hl,-⟩)
  · obtain rfl := hno.unique hno'
    rw [if_pos (Errno.ret_neg err)]
    exact Total.pure rfl
  · exact absurd hno hl.not_refusal

/-- `cmd_rm` of a name that can be removed returns 0 and removes it, unless an assertion fails. -/
theorem cmdRm_leaves (h : Ready s c v E) (hl : Leaving v E c.curDir name e) :
    Wlp (cmdRm [name]) s fun r t => r = (0,.nothing) ∧ ∃ w,
      Unmade c.curDir (E c.curDir) name e.nr.toNat v w ∧
      Ready t (c.clean c.curDir) w (unmadeEntries E c.curDir name e.nr.toNat) := by
  have hreply : Wlp (cmdRm [name]) s fun r _ => r = (0,.nothing) := by
    simp only [cmdRm,cmdRmWith,Wlp.bind_iff,Wlp.get_iff,monadLift_self]
    rw [h.curDir_eq]
    refine (hl.removeDirent (c := c.touch c.curDir) h.touch (Set.mem_insert ..)).wlp.mono ?_
    rintro r t ⟨rfl,-⟩
    rw [if_neg (by omega)]
    simp only [Wlp.bind_iff]
    intro _ t1 _ _ t2 _ _ t3 _
    exact Wlp.pure_iff.mpr rfl
  refine (hreply.and (cmdRm_spec h name)).mono ?_
  rintro r t ⟨rfl,⟨hneg,-⟩ | ⟨-,i,w,hedge,hu,ht⟩⟩
  · exact absurd hneg (lt_irrefl 0)
  · obtain ⟨-,-,e',hlook,rfl⟩ := (edge_iff (h.tree.distinct _)).mp hedge
    obtain rfl : e = e' := Option.some.inj (hl.lookup.symm.trans hlook)
    exact ⟨rfl,w,hu,ht⟩

/-- After its entry the inode is removed exactly when the bound covers its slots. -/
theorem Leaving.removeInode_returns_iff (hl : Leaving v E c.curDir name e) (h : Ready s c v E)
    (ht : Valid t ((c.touch c.curDir).hold e.nr.toNat) w) (hw : Frame c.curDir v w)
    (h0 : 0 ≤ eBlockNr (v.inode e.nr.toNat).iSize.toInt) :
    Returns (testfsRemoveInode e.nr.toNat) t ↔
      Covered v e.nr.toNat (eBlockNr (v.inode e.nr.toNat).iSize.toInt) := by
  have hmark := marked_of_lookup h.tree hl.lookup
  have hlt := h.tree.bound _ hmark
  have hne := (h.tree.isTree.ne_of_edge (hl.edge h.tree)).symm
  have hin := hw.inode _ hne
  have hrow := hw.ref _ hne
  have hpos : 0 < w.usedInodes.toNat := by
    rw [hw.usedInodes,h.tree.count,Nat.pos_iff_ne_zero]
    intro hz
    rw [Marked,held_eq_zero.mp hz _ (Finset.mem_range.mpr hlt)] at hmark
    cases hmark
  have hiff := testfsRemoveInode_returns_iff (c := (((c.touch c.curDir).hold e.nr.toNat).touch
    e.nr.toNat).resize t.dev.size) (Set.mem_insert _ _) (held_hold (c.touch c.curDir) _)
    ((ht.touch _).stands.resize le_rfl) ht.accounts (ht.backed _ _) (by rwa [hin])
    (by rw [hw.inodeUsed]; exact hmark) hpos
  rw [hin] at hiff
  rw [hiff,Covered,Covered,hrow]

/-- `cmd_rm` returns if the inode can be freed. -/
theorem cmdRm_returns (h : Ready s c v E) (hl : Leaving v E c.curDir name e)
    (hf : Freeable v e.nr.toNat) : Returns (cmdRm [name]) s := by
  have hlt := h.tree.bound _ (marked_of_lookup h.tree hl.lookup)
  refine Returns.bind (Returns.get s) (Wlp.get_iff.mpr ?_)
  rw [h.curDir_eq]
  have hdirent := hl.removeDirent (c := c.touch c.curDir) h.touch (Set.mem_insert ..)
  refine Returns.bind hdirent.returns (hdirent.wlp.mono ?_)
  rintro _ t ⟨rfl,w,hw,hframe,-⟩
  rw [if_neg (by omega),Int.toNat_natCast]
  refine Returns.bind (testfsGetInode_returns hw.stands hlt)
    ((testfsGetInode_valid hw e.nr.toNat).mono fun _ t1 h1 => ?_)
  refine Returns.bind ((hl.removeInode_returns_iff h h1 hframe hf.1).mpr hf.2)
    ((testfsRemoveInode_valid (Set.mem_insert _ _) (h1.touch e.nr.toNat)).mono ?_)
  rintro _ t2 ⟨w2,h2,-⟩
  have h2' := undo_memory h.touch.counted h2
  exact Returns.bind (testfsSyncInode_returns h2'.stands h.held) fun _ t3 _ => Returns.pure _ t3

end Commands

/-! ## A file that comes and goes -/

/-- "d" -/
def dirName : CString := ⟨[100],by decide⟩

def makeDir : FsSessions.Action := .command .mkdir [dirName]

def removeFile : FsSessions.Action := .command .rm [fileName]

theorem freeable_onlyFile {i : ℕ} {c : Memory} {v w : Volume} {E : ℕ → List Entry}
    (h : OnlyFile i c v E) (hw : w.inode i = v.inode i) : Freeable w i := by
  have hself := hw.trans h.self
  refine freeable_of_ref_zero (fun l => ?_) (by rw [hself]; rfl)
  cases l <;> simp [ref,hself,Dinode.zero]

/-- After the file a directory can be made, and then the file can be removed. -/
theorem work_exists : ∃ t u, (cmdMkdir [dirName]).run fileTestfs = some ((0,.nothing),t) ∧
    (cmdRm [fileName]).run t = some ((0,.nothing),u) := by
  obtain ⟨i,c,E,hready,hfile⟩ := fileTestfs_ready
  have hnew : NewName dirName (E 0) := hfile.newName (by decide) (by decide) (by decide)
  have hdemand : demand (volume fileTestfs) 0 (sizes (E 0)/blockSize) = 0 := by
    rw [hfile.sizes_root]
    exact demand_eq_zero (hready.tree.isDir 0 hready.tree.root)
      (by rw [hfile.sizes_root]; decide)
  obtain ⟨r,t,j,w,hrun,rfl,hmade,hj,ht,happ,-⟩ := cmdCreateType_appends hready .dir hfile.curDir
    hnew (by rw [hfile.usedInodes]; decide) (by rw [hfile.sizes_root]; decide)
    (by rw [hfile.sizes_root]; decide)
    (by rw [hdemand,hfile.usedBlocks,hfile.maxBlocks]; decide)
  have hij : i ≠ j := by
    rintro rfl
    have hmark := marked_of_lookup hready.tree hfile.entry
    rw [toNat_ofNat_inode hfile.lt,Marked,hmade.unused] at hmark
    cases hmark
  have hin : w.inode i = (volume fileTestfs).inode i := hmade.inode i hfile.ne hij
  have hne : fileName ≠ dirName := by decide
  have hlook : lookup fileName (madeEntries E 0 dirName .dir j 0) =
      some ⟨BitVec.ofNat 32 i,fileName⟩ := by
    rw [madeEntries_parent _ _ _ hj,lookup_addEntry (hready.tree.distinct 0)
      (live_ofNat_inode hmade.lt dirName) hnew.lookup,if_neg hne,hfile.entry]
  have hleaving : Leaving w (madeEntries E 0 dirName .dir j) (c.clean 0).curDir fileName
      ⟨BitVec.ofNat 32 i,fileName⟩ := by
    refine ⟨by decide,by decide,?_,fun hdir => ?_⟩
    · rw [show (c.clean 0).curDir = 0 from hfile.curDir]
      exact hlook
    · rw [toNat_ofNat_inode hfile.lt,hin,hfile.self] at hdir
      exact absurd hdir (by decide)
  have hfree : Freeable w (BitVec.ofNat 32 i).toNat := by
    rw [toNat_ofNat_inode hfile.lt]
    exact freeable_onlyFile hfile hin
  obtain ⟨r,u,hrm,rfl,-⟩ := (cmdRm_returns ht hleaving hfree).total (cmdRm_leaves ht hleaving)
  exact ⟨t,u,hrun,hrm⟩

theorem dirTestfs_isSome : (fsStep fileTestfs makeDir).isSome = true := by
  obtain ⟨t,u,hrun,-⟩ := work_exists
  have hstep : fsStep fileTestfs makeDir = some t := step_of_run hrun
  rw [hstep]
  rfl

/-- The smallest file system with one empty file and one empty directory. -/
def dirTestfs : Testfs := (fsStep fileTestfs makeDir).get dirTestfs_isSome

theorem dirTestfs_step : fsStep fileTestfs makeDir = some dirTestfs := (Option.some_get _).symm

theorem dirTestfs_run : (cmdMkdir [dirName]).run fileTestfs = some ((0,.nothing),dirTestfs) ∧
    ∃ u, (cmdRm [fileName]).run dirTestfs = some ((0,.nothing),u) := by
  obtain ⟨t,u,hrun,hrm⟩ := work_exists
  have hstep : fsStep fileTestfs makeDir = some t := step_of_run hrun
  obtain rfl : dirTestfs = t := Option.some.inj (dirTestfs_step.symm.trans hstep)
  exact ⟨hrun,u,hrm⟩

theorem dirTestfs_reachable : FsReachable dirTestfs :=
  FsRun.step fileTestfs_reachable trivial dirTestfs_step

theorem usedTestfs_isSome : (fsStep dirTestfs removeFile).isSome = true := by
  obtain ⟨-,u,hrm⟩ := dirTestfs_run
  have hstep : fsStep dirTestfs removeFile = some u := step_of_run hrm
  rw [hstep]
  rfl

/-- The file system without the file again. -/
def usedTestfs : Testfs := (fsStep dirTestfs removeFile).get usedTestfs_isSome

theorem usedTestfs_step : fsStep dirTestfs removeFile = some usedTestfs := (Option.some_get _).symm

theorem usedTestfs_removed : (cmdRm [fileName]).run dirTestfs = some ((0,.nothing),usedTestfs) := by
  obtain ⟨-,u,hrm⟩ := dirTestfs_run
  have hstep : fsStep dirTestfs removeFile = some u := step_of_run hrm
  obtain rfl : usedTestfs = u := Option.some.inj (usedTestfs_step.symm.trans hstep)
  exact hrm

theorem usedTestfs_run {ok : Testfs → FsSessions.Action → Prop} (h1 : ok freshTestfs createFile)
    (h2 : ok fileTestfs makeDir) (h3 : ok dirTestfs removeFile) : FsRun ok usedTestfs :=
  (((freshTestfs_run ok).step h1 fileTestfs_step).step h2 dirTestfs_step).step h3 usedTestfs_step

theorem usedTestfs_reachable : FsReachable usedTestfs := usedTestfs_run trivial trivial trivial

end DirReplies
end OsLabs

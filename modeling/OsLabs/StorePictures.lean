import Mathlib.Data.BitVec
import Mathlib.Tactic
import OsLabs.Bytes
import OsLabs.Wlp
import OsLabs.FsModel
import OsLabs.DirModel
import OsLabs.FsVolume
import OsLabs.FsAccounts
import OsLabs.Dirents
import OsLabs.DirMap
import OsLabs.DirOps
import OsLabs.FsCreation
import OsLabs.RootedTree
import OsLabs.FileTrees
import OsLabs.FsTree
import OsLabs.FsCommands
import OsLabs.FsReading
import OsLabs.FsWalks
import OsLabs.FileStore

/-!
# Pictures of the file system

`Pictures` connects the volume and the entries of its directories to a store. The commands that
only look at the tree answer as a step of the store does, and `testfs_ls` lists its names.
-/

namespace OsLabs
namespace StorePictures

open Bytes FsModel DirModel FsVolume FsAccounts Dirents DirMap DirOps FsCreation
open RootedTree FileTrees FsTree FsCommands FsReading FsWalks FileStore

def dataOf (v : Volume) (i : ℕ) : FileData := ⟨(v.inode i).iSize.toInt,contents v i⟩

/-- What an inode is in the tree of files. -/
def kindOf (v : Volume) (i : ℕ) : Node FileData :=
  if Directory v i then .directory else .file (dataOf v i)

/-- The store `S` shows the directory entries `E` of the volume, seen from the inode `d`. -/
structure Pictures (v : Volume) (E : ℕ → List Entry) (d : ℕ) (S : Store) : Prop where
  shows : Shows S.tree 0 (Edge E) (kindOf v)
  path : Path 0 (Edge E) S.cwd d

/-- A command answers `r` and leaves the state `t`, as a step of the store does. -/
def Simulates (S : Store) (cmd : Command) (args : List CString) (r : Reply) (t : Testfs) : Prop :=
  ∃ c w E S', Ready t c w E ∧ Pictures w E c.curDir S' ∧ Step S cmd args r S'

section Pictures

variable {s t : Testfs} {c c' : Memory} {v w : Volume} {E : ℕ → List Entry} {S : Store} {i d : ℕ}
  {name : CString} {e : Entry} {cmd : Command} {args : List CString} {r : Reply}

theorem kindOf_directory (hd : Directory v i) : kindOf v i = .directory := if_pos hd

theorem kindOf_file (hd : ¬Directory v i) : kindOf v i = .file (dataOf v i) := if_neg hd

theorem isDirectory_kindOf (v : Volume) (i : ℕ) :
    (kindOf v i).isDirectory = decide (Directory v i) := by
  by_cases hd : Directory v i
  · rw [kindOf_directory hd,decide_eq_true hd]
    rfl
  · rw [kindOf_file hd,decide_eq_false hd]
    rfl

theorem kindOf_congr (hi : w.inode i = v.inode i) (hl : logical w i = logical v i) :
    kindOf w i = kindOf v i := by
  have hc : contents w i = contents v i := by
    funext q
    rw [contents,contents,hl]
  simp only [kindOf,dataOf,Directory,hi,hc]

theorem Pictures.same (h : Pictures v E d S) (hs : Same v w) : Pictures w E d S := by
  have hk : kindOf w = kindOf v :=
    funext fun i => kindOf_congr (by rw [hs.inode]) (by rw [hs.logical])
  exact ⟨hk ▸ h.shows,h.path⟩

/-- The command has changed nothing that is seen. -/
theorem Pictures.unchanged (h : Pictures v E c.curDir S) (ht : Ready t c' w E) (hs : Same v w)
    (hc : c'.curDir = c.curDir) (hstep : Step S cmd args r S) : Simulates S cmd args r t :=
  ⟨c',w,E,S,ht,hc ▸ h.same hs,hstep⟩

theorem Pictures.find_none (h : Pictures v E d S) (ht : Tree v E) (hd : Directory v d)
    (hlook : lookup name (E d) = none) : S.find name = none := by
  obtain ⟨h1,h2⟩ := ht.ne_dots hd hlook
  rw [Store.find,S.resolve_of_ne h1 h2]
  by_contra hnone
  obtain ⟨i,he⟩ := (h.shows.node_below ht.isTree h.path).mp hnone
  obtain ⟨-,-,e,he,-⟩ := (edge_iff (ht.distinct d)).mp he
  rw [hlook] at he
  cases he

/-- An entry leads along the path that its name stands for. -/
theorem Pictures.resolve_path (h : Pictures v E d S) (ht : Tree v E) (hd : Directory v d)
    (hlook : lookup name (E d) = some e) : Path 0 (Edge E) (S.resolve name) e.nr.toNat := by
  have hlt := ht.lt_of_directory hd
  by_cases h1 : name = dot
  · subst h1
    rw [ht.dot_entry d hd,Option.some.injEq] at hlook
    rw [← hlook,toNat_ofNat_inode hlt,Store.resolve,if_pos rfl]
    exact h.path
  · by_cases h2 : name = dotdot
    · subst h2
      obtain ⟨p,hp,hcase⟩ := ht.exists_lookup_dotdot hd
      rw [hp,Option.some.injEq] at hlook
      rw [Store.resolve,if_neg h1,if_pos rfl,← hlook]
      rcases hcase with ⟨rfl,rfl⟩ | ⟨n,he⟩
      · rw [h.path.unique ht.isTree .root]
        exact .root
      · have hplt := ht.lt_of_directory (directory_of_edge ht he)
        obtain ⟨q,hq⟩ := ht.isTree.exists_path (ht.isTree.source _ _ _ he)
        rw [toNat_ofNat_inode hplt,h.path.unique ht.isTree (.step hq he),List.dropLast_concat]
        exact hq
    · rw [S.resolve_of_ne h1 h2]
      exact .step h.path ((edge_iff (ht.distinct d)).mpr ⟨h1,h2,e,hlook,rfl⟩)

theorem Pictures.find_some (h : Pictures v E d S) (ht : Tree v E) (hd : Directory v d)
    (hlook : lookup name (E d) = some e) : S.find name = some (kindOf v e.nr.toNat) :=
  h.shows.node_eq (h.resolve_path ht hd hlook)

end Pictures

/-! ## Walking through the tree -/

section Walking

variable {s t : Testfs} {c c' : Memory} {v w : Volume} {E : ℕ → List Entry} {S : Store} {i d o n : ℕ}
  {name : CString} {e : Entry} {T : FileTree CString FileData} {p : List CString}
  {rest : List Entry}

/-- What `testfs_dir_name_to_inode_nr` answers in the current directory. -/
theorem lookup_reply (h : Ready s c v E) (name : CString) :
    Wlp (testfsDirNameToInodeNr c.curDir name) s fun r t => t = s ∧
      match lookup name (E c.curDir) with
      | none => r = Errno.noent.ret
      | some e => r = e.nr.toNat := by
  refine (testfsDirNameToInodeNr_spec h.valid.stands h.valid.accounts h.isDir name).mono ?_
  rintro r t ⟨rfl,hr⟩
  refine ⟨rfl,?_⟩
  cases hlook : lookup name (E c.curDir) with
  | none =>
    rw [hlook] at hr
    exact hr
  | some e =>
    rw [hlook] at hr
    exact Eq.trans hr (toInt_of_live (lookup_some hlook).2.1)

/-- `cmd_cd` answers by what the name stands for. -/
theorem cmdCd_reply (h : Ready s c v E) (name : CString) :
    Wlp (cmdCd [name]) s fun r _ => match lookup name (E c.curDir) with
      | none => r = fails .noent
      | some e => r = if Directory v e.nr.toNat then (0,.nothing) else fails .notdir := by
  simp only [cmdCd,cmdCdWith,Wlp.bind_iff,Wlp.get_iff,monadLift_self]
  rw [h.curDir_eq]
  refine (lookup_reply h name).mono ?_
  rintro r t ⟨rfl,hr⟩
  cases hlook : lookup name (E c.curDir) with
  | none =>
    rw [hlook] at hr
    obtain rfl : r = Errno.noent.ret := hr
    exact Wlp.pure_iff.mpr rfl
  | some e =>
    rw [hlook] at hr
    obtain rfl : r = e.nr.toNat := hr
    rw [if_neg (by omega),Int.toNat_natCast]
    simp only [Wlp.bind_iff]
    refine (testfsGetInode_valid h.valid _).mono fun _ t1 h1 => ?_
    refine (inodeOf_spec h1.stands _).mono ?_
    rintro inode t2 ⟨rfl,-,hv⟩
    rw [hv,Wlp.ite_iff]
    constructor
    · intro hfile
      rw [Wlp.bind_iff]
      intro _ t3 _
      rw [if_neg hfile]
      exact Wlp.pure_iff.mpr rfl
    · intro hdir
      rw [Wlp.bind_iff]
      intro _ t3 _
      rw [Wlp.bind_iff,if_pos (not_not.mp hdir)]
      exact Wlp.modify_iff.mpr (Wlp.pure_iff.mpr rfl)

theorem cmdCd_simulates (h : Ready s c v E) (hp : Pictures v E c.curDir S) (name : CString) :
    Wlp (cmdCd [name]) s fun r t => Simulates S .cd [name] r t := by
  refine ((cmdCd_spec h name).and (cmdCd_reply h name)).mono ?_
  rintro r t ⟨hspec,hreply⟩
  cases hlook : lookup name (E c.curDir) with
  | none =>
    rw [hlook] at hreply
    obtain rfl : r = fails .noent := hreply
    obtain ⟨-,ht,-⟩ := hspec.resolve_right fun hc => absurd hc.1 (by decide)
    exact hp.unchanged ht (Same.refl v) rfl
      (.missing (by decide) (hp.find_none h.tree h.curDir hlook))
  | some e =>
    rw [hlook] at hreply
    simp only at hreply
    have hfind := hp.find_some h.tree h.curDir hlook
    by_cases hd : Directory v e.nr.toNat
    · rw [if_pos hd] at hreply
      subst hreply
      obtain ⟨-,e',c',hlook',ht,hcur,-⟩ := hspec.resolve_left fun hc => absurd hc.1 (by decide)
      obtain rfl : e = e' := Option.some.inj (hlook.symm.trans hlook')
      rw [kindOf_directory hd] at hfind
      refine ⟨c',v,E,S.goTo name hfind,ht,⟨hp.shows,?_⟩,.cd hfind⟩
      rw [hcur]
      exact hp.resolve_path h.tree h.curDir hlook
    · rw [if_neg hd] at hreply
      subst hreply
      obtain ⟨-,ht,-⟩ := hspec.resolve_right fun hc => absurd hc.1 (by decide)
      rw [kindOf_file hd] at hfind
      exact hp.unchanged ht (Same.refl v) rfl (.notDirectory (by decide) hfind)

theorem cmdPwd_simulates (h : Ready s c v E) (hp : Pictures v E c.curDir S) :
    Wlp (cmdPwd []) s fun r t => Simulates S .pwd [] r t := by
  refine (cmdPwd_total h hp.path).wlp.mono ?_
  rintro r t ⟨rfl,ht⟩
  exact hp.unchanged ht (Same.refl v) rfl .pwd

/-- `cmd_stat` answers with the inode that the name stands for. -/
theorem cmdStat_reply (h : Ready s c v E) (name : CString) :
    Wlp (cmdStat [name]) s fun r t => Ready t c v E ∧ match lookup name (E c.curDir) with
      | none => r = fails .noent
      | some e => r = (0,.stat name e.nr.toNat (v.inode e.nr.toNat).iType (v.inode e.nr.toNat).iSize
          (v.inode e.nr.toNat).blockCount) := by
  simp only [cmdStat,cmdStatWith,Wlp.bind_iff,Wlp.get_iff,monadLift_self]
  rw [h.curDir_eq]
  refine (lookup_reply h name).mono ?_
  rintro r t ⟨rfl,hr⟩
  cases hlook : lookup name (E c.curDir) with
  | none =>
    rw [hlook] at hr
    obtain rfl : r = Errno.noent.ret := hr
    exact Wlp.pure_iff.mpr ⟨h,rfl⟩
  | some e =>
    rw [hlook] at hr
    obtain rfl : r = e.nr.toNat := hr
    rw [if_neg (by omega),Int.toNat_natCast]
    simp only [Wlp.bind_iff]
    refine (testfsGetInode_valid h.valid _).mono fun _ t1 h1 => ?_
    refine (inodeOf_spec h1.stands _).mono ?_
    rintro inode t2 ⟨rfl,-,hv⟩
    refine (testfsPutInode_valid h1 _).mono fun _ t3 h3 => ?_
    rw [hv]
    exact Wlp.pure_iff.mpr ⟨h.unchanged (Valid.of_release h.counted h3) (Same.refl v),rfl⟩

theorem cmdStat_simulates (h : Ready s c v E) (hp : Pictures v E c.curDir S) (name : CString) :
    Wlp (cmdStat [name]) s fun r t => Simulates S .stat [name] r t := by
  refine (cmdStat_reply h name).mono ?_
  rintro r t ⟨ht,hreply⟩
  cases hlook : lookup name (E c.curDir) with
  | none =>
    rw [hlook] at hreply
    obtain rfl : r = fails .noent := hreply
    exact hp.unchanged ht (Same.refl v) rfl
      (.missing (by decide) (hp.find_none h.tree h.curDir hlook))
  | some e =>
    rw [hlook] at hreply
    simp only at hreply
    subst hreply
    refine hp.unchanged ht (Same.refl v) rfl (.stat (hp.find_some h.tree h.curDir hlook) ?_)
    by_cases hd : Directory v e.nr.toNat
    · rw [kindOf_directory hd]
      exact hd
    · rw [kindOf_file hd]
      exact ⟨hd,rfl⟩

/-- The number of inodes in use is that of the files and directories. -/
theorem cmdFsstat_simulates (h : Ready s c v E) (hp : Pictures v E c.curDir S) :
    Wlp (cmdFsstat []) s fun r t => Simulates S .fsstat [] r t := by
  refine Wlp.bind_iff.mpr (Wlp.get_iff.mpr (Wlp.pure_iff.mpr ?_))
  refine hp.unchanged h (Same.refl v) rfl (.fsstat ?_)
  have hset : {i | Marked v i} = ((Finset.range nrInodes).filter fun i => v.inodeUsed i ≠ false) := by
    ext i
    simp only [Set.mem_ofPred_eq,Finset.coe_filter,Finset.mem_range]
    constructor
    · intro hm
      exact ⟨h.tree.bound i hm,by rw [hm]; simp⟩
    · rintro ⟨-,hm⟩
      exact Bool.ne_false_iff.mp hm
  rw [h.valid.stands.usedInodes_eq,h.tree.count,hp.shows.size_eq h.tree.isTree,hset,
    Set.ncard_coe_finset]
  rfl

/-! ### Listings -/

/-- The names of the live entries. -/
def liveNames (es : List Entry) : List CString := (es.filter Entry.live).map Entry.name

theorem mem_liveNames {es : List Entry} (h : Distinct es) {n : CString} :
    n ∈ liveNames es ↔ ∃ e, lookup n es = some e := by
  rw [liveNames,List.mem_map]
  constructor
  · rintro ⟨e,he,rfl⟩
    obtain ⟨hm,hl⟩ := List.mem_filter.mp he
    exact ⟨e,(lookup_eq_some_iff h).mpr ⟨hm,hl,rfl⟩⟩
  · rintro ⟨e,he⟩
    obtain ⟨hm,hl,hn⟩ := lookup_some he
    exact ⟨e,List.mem_filter.mpr ⟨hm,hl⟩,hn⟩

theorem nodup_liveNames {es : List Entry} (h : Distinct es) : (liveNames es).Nodup := by
  induction es with
  | nil => exact List.nodup_nil
  | cons e es ih =>
    have hrest := ih (List.Pairwise.of_cons h)
    by_cases hl : e.live = true
    · rw [liveNames,List.filter_cons_of_pos hl,List.map_cons,List.nodup_cons]
      refine ⟨?_,hrest⟩
      rw [List.mem_map]
      rintro ⟨x,hx,hn⟩
      obtain ⟨hm,hxl⟩ := List.mem_filter.mp hx
      exact List.rel_of_pairwise_cons h hm hl hxl hn.symm
    · rwa [liveNames,List.filter_cons_of_neg hl]

theorem complete_liveNames (hs : Shows T 0 (Edge E) (kindOf v)) (ht : Tree v E)
    (hp : Path 0 (Edge E) p i) (hd : Directory v i) : Complete T p (liveNames (E i)) := by
  refine ⟨nodup_liveNames (ht.distinct i),fun n => ?_⟩
  rw [mem_liveNames (ht.distinct i),hs.node_below ht.isTree hp]
  constructor
  · rintro ⟨e,he⟩
    by_cases h1 : n = dot
    · exact .inl h1
    · by_cases h2 : n = dotdot
      · exact .inr (.inl h2)
      · exact .inr (.inr ⟨_,(edge_iff (ht.distinct i)).mpr ⟨h1,h2,e,he,rfl⟩⟩)
  · rintro (rfl | rfl | ⟨j,he⟩)
    · exact ⟨_,ht.dot_entry i hd⟩
    · obtain ⟨x,hx,-⟩ := ht.exists_lookup_dotdot hd
      exact ⟨_,hx⟩
    · obtain ⟨-,-,e,he,-⟩ := (edge_iff (ht.distinct i)).mp he
      exact ⟨e,he⟩

/-- The entries "." and ".." are those of directories. -/
theorem directory_of_dots (ht : Tree v E) (hd : Directory v i) (he : e ∈ E i)
    (hl : e.live = true) (hn : e.name = dot ∨ e.name = dotdot) : Directory v e.nr.toNat := by
  have hlook := (lookup_eq_some_iff (ht.distinct i)).mpr ⟨he,hl,rfl⟩
  rcases hn with hn | hn
  · rw [hn,ht.dot_entry i hd,Option.some.injEq] at hlook
    rwa [← hlook,toNat_ofNat_inode (ht.lt_of_directory hd)]
  · obtain ⟨x,hx,hcase⟩ := ht.exists_lookup_dotdot hd
    have hdir : Directory v x := by
      rcases hcase with ⟨-,rfl⟩ | ⟨m,hm⟩
      · exact ht.root
      · exact directory_of_edge ht hm
    rw [hn,hx,Option.some.injEq] at hlook
    rwa [← hlook,toNat_ofNat_inode (ht.lt_of_directory hdir)]

/-- `testfs_ls` lists the names from an entry on. -/
theorem testfsLs_lists (hs : Shows T 0 (Edge E) (kindOf v)) (ht : Tree v E) (recursive : Bool)
    (hc : c.Counted) (hv : Valid s c v) (h : Rounds v E p i o rest n) :
    Wlp (testfsLs recursive n i o) s fun l t =>
      Valid t c v ∧ Lists T recursive p (liveNames rest) l := by
  induction n generalizing s c p i o rest with
  | zero => exact Wlp.of_failure
  | succ n ih =>
    rw [testfsLs,testfsLsWith,Wlp.bind_iff]
    refine (h.nextDirent_spec ht hv).mono ?_
    rintro r t ⟨rfl,hr⟩
    cases rest with
    | nil =>
      obtain rfl : r = none := hr
      exact Wlp.pure_iff.mpr ⟨hv,.nil⟩
    | cons e rest =>
      obtain rfl : r = some (e.toDirent,((o + e.size : ℕ) : ℤ)) := hr
      have hmem : e ∈ E i := h.subset List.mem_cons_self
      simp only
      rw [Entry.live_toDirent,Wlp.ite_iff]
      constructor
      · intro hl
        rw [liveNames,List.filter_cons_of_neg (by rw [hl]; simp)]
        exact ih hc hv h.next
      · intro hl
        rw [Bool.not_eq_false] at hl
        rw [liveNames,List.filter_cons_of_pos hl,List.map_cons]
        simp only [Wlp.bind_iff]
        refine (testfsGetInode_valid hv _).mono fun _ t1 h1 => ?_
        refine (inodeOf_spec h1.stands _).mono ?_
        rintro inode t2 ⟨rfl,-,hinode⟩
        refine Wlp.lift_iff.mpr fun name hname => ?_
        obtain rfl : e.name = name := Option.some.inj ((toCString_bytes e.name).symm.trans hname)
        have hflag : decide (inode.data.iType = InodeType.dir.code) =
            (kindOf v e.nr.toNat).isDirectory := by
          rw [isDirectory_kindOf,hinode]
          rfl
        rw [hflag]
        -- what is below the entry has been listed
        have hrest : ∀ t (f : List (CString × Bool) → List (CString × Bool)),
            Valid t (c.hold e.nr.toNat) v →
            (∀ l, Lists T recursive p (liveNames rest) l →
              Lists T recursive p (e.name::liveNames rest) (f l)) →
            Wlp (testfsPutInode e.nr.toNat) t fun _ t1 =>
              Wlp (testfsLs recursive n i ((o + e.size : ℕ) : ℤ)) t1 fun l t2 =>
                Wlp (pure (f l) : FsM (List (CString × Bool))) t2 fun l t3 =>
                  Valid t3 c v ∧ Lists T recursive p (e.name::liveNames rest) l := by
          intro t f h3 hf
          refine (testfsPutInode_valid h3 _).mono fun _ t4 h4 => ?_
          refine (ih hc (Valid.of_release hc h4) h.next).mono fun l t5 h5 => ?_
          exact Wlp.pure_iff.mpr ⟨h5.1,hf l h5.2⟩
        rw [Wlp.ite_iff]
        constructor
        · rintro ⟨hrec,hdir,h1',h2'⟩
          have hd : Directory v e.nr.toNat := by
            rw [isDirectory_kindOf] at hdir
            exact of_decide_eq_true hdir
          have hround := h.below ht hl h1' h2' hd
          rw [Wlp.bind_iff]
          refine (ih (Counted.hold hc _) h1 hround).mono fun below t3 h3 => ?_
          simp only [Wlp.bind_iff]
          refine hrest t3 _ h3.1 fun l hl => ?_
          rw [hdir]
          have hnode := (hs.node_eq hround.path).trans (congrArg some (kindOf_directory hd))
          exact .into hnode hrec (complete_liveNames hs ht hround.path hd) h3.2 hl
        · intro hplain
          simp only [Wlp.bind_iff]
          refine hrest _ _ h1 fun l hl' => ?_
          by_cases hdots : e.name = dot ∨ e.name = dotdot
          · rw [kindOf_directory (directory_of_dots ht h.isDir hmem hl hdots)]
            exact .dots hdots hl'
          · obtain ⟨h1',h2'⟩ := not_or.mp hdots
            have hnode := hs.node_eq (.step h.path (edge_of_live hmem hl h1' h2'))
            refine .plain hnode ?_ hl'
            by_contra hno
            rw [not_or,Bool.not_eq_false,Bool.not_eq_false] at hno
            exact hplain ⟨hno.1,hno.2,h1',h2'⟩

/-- What `cmd_ls` and `cmd_lsr` answer. -/
def LsReply (S : Store) (recursive : Bool) (name : CString) (r : Reply) : Prop :=
  (S.find name = none ∧ r = fails .noent) ∨
  (∃ f, S.find name = some (.file f) ∧ r = fails .notdir) ∨
  ∃ ns l, S.find name = some .directory ∧ Complete S.tree (S.resolve name) ns ∧
    Lists S.tree recursive (S.resolve name) ns l ∧ r = (0,.names l)

theorem cmdLsInternal_reply (h : Ready s c v E) (hp : Pictures v E c.curDir S) (recursive : Bool)
    (name : CString) :
    Wlp (cmdLsInternal recursive [name]) s fun r t => LsReply S recursive name r ∧
      ∃ c', Ready t c' v E ∧ c'.curDir = c.curDir := by
  simp only [cmdLsInternal,cmdLsInternalWith,Wlp.bind_iff,Wlp.get_iff,monadLift_self]
  rw [h.curDir_eq]
  refine (lookup_reply h name).mono ?_
  rintro r t ⟨rfl,hr⟩
  cases hlook : lookup name (E c.curDir) with
  | none =>
    rw [hlook] at hr
    obtain rfl : r = Errno.noent.ret := hr
    exact Wlp.pure_iff.mpr ⟨.inl ⟨hp.find_none h.tree h.curDir hlook,rfl⟩,c,h,rfl⟩
  | some e =>
    rw [hlook] at hr
    obtain rfl : r = e.nr.toNat := hr
    have hfind := hp.find_some h.tree h.curDir hlook
    have hpath := hp.resolve_path h.tree h.curDir hlook
    rw [if_neg (by omega),Int.toNat_natCast]
    simp only [Wlp.bind_iff]
    refine (testfsGetInode_valid h.valid _).mono fun _ t1 h1 => ?_
    refine (inodeOf_spec h1.stands _).mono ?_
    rintro inode t2 ⟨rfl,-,hv⟩
    rw [hv,Wlp.ite_iff]
    constructor
    · intro hd
      rw [kindOf_directory hd] at hfind
      simp only [Wlp.bind_iff]
      refine (testfsLs_lists hp.shows h.tree recursive (Counted.hold h.counted _) h1
        (rounds_lsFuel h.tree hpath hd)).mono ?_
      rintro l t3 ⟨h3,hl⟩
      refine (testfsPutInode_valid h3 _).mono fun _ t4 h4 => ?_
      exact Wlp.pure_iff.mpr ⟨.inr (.inr ⟨_,l,hfind,complete_liveNames hp.shows h.tree hpath hd,hl,rfl⟩),
        c,h.unchanged (Valid.of_release h.counted h4) (Same.refl v),rfl⟩
    · intro hd
      rw [kindOf_file hd] at hfind
      exact Wlp.pure_iff.mpr ⟨.inr (.inl ⟨_,hfind,rfl⟩),_,
        { h with
          valid := h1
          counted := Counted.hold h.counted _
          held := Held.hold h.held _ },rfl⟩

theorem cmdLs_simulates (h : Ready s c v E) (hp : Pictures v E c.curDir S) (name : CString) :
    Wlp (cmdLsInternal false [name]) s fun r t => Simulates S .ls [name] r t := by
  refine (cmdLsInternal_reply h hp false name).mono ?_
  rintro r t ⟨⟨hf,rfl⟩ | ⟨f,hf,rfl⟩ | ⟨ns,l,hf,hn,hl,rfl⟩,c',ht,hcur⟩
  · exact hp.unchanged ht (Same.refl v) hcur (.missing (by decide) hf)
  · exact hp.unchanged ht (Same.refl v) hcur (.notDirectory (by decide) hf)
  · exact hp.unchanged ht (Same.refl v) hcur (.ls hf hn hl)

theorem cmdLsr_simulates (h : Ready s c v E) (hp : Pictures v E c.curDir S) (name : CString) :
    Wlp (cmdLsInternal true [name]) s fun r t => Simulates S .lsr [name] r t := by
  refine (cmdLsInternal_reply h hp true name).mono ?_
  rintro r t ⟨⟨hf,rfl⟩ | ⟨f,hf,rfl⟩ | ⟨ns,l,hf,hn,hl,rfl⟩,c',ht,hcur⟩
  · exact hp.unchanged ht (Same.refl v) hcur (.missing (by decide) hf)
  · exact hp.unchanged ht (Same.refl v) hcur (.notDirectory (by decide) hf)
  · exact hp.unchanged ht (Same.refl v) hcur (.lsr hf hn hl)

end Walking

end StorePictures
end OsLabs

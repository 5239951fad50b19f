import Mathlib.Data.BitVec
import Mathlib.Tactic
import OsLabs.Bytes
import OsLabs.Wlp
import OsLabs.FsModel
import OsLabs.DirModel
import OsLabs.FsVolume
import OsLabs.FsAccounts
import OsLabs.Dirents
import OsLabs.DirMap
import OsLabs.DirOps
import OsLabs.FsCreation
import OsLabs.RootedTree
import OsLabs.FileTrees
import OsLabs.FsTree
import OsLabs.FsCommands
import OsLabs.FsReading
import OsLabs.FsWriting
import OsLabs.FsWalks
import OsLabs.FsSessions
import OsLabs.FsErrors
import OsLabs.BlockNarrowing
import OsLabs.FsFiles
import OsLabs.FsFrames
import OsLabs.FileHistory
import OsLabs.DirReplies
import OsLabs.DirectoryMaps
import OsLabs.FileStore
import OsLabs.StorePictures

/-!
# Commands that change the tree of files

Making a name grafts a leaf on the tree, removing one prunes it, and writing to a file replaces
its data. A command that is refused answers with the reason, and the picture stays as it was.
-/

namespace OsLabs
namespace StoreChanges

open Bytes FsModel DirModel FsVolume FsAccounts Dirents DirMap DirOps FsCreation
open RootedTree FileTrees FsTree FsCommands FsReading FsWriting FsWalks FsSessions DirectoryMaps DirReplies
open FileStore
open BlockNarrowing FsErrors FsFiles FsFrames FileHistory StorePictures

/-! ## Making and removing names -/

section Names

variable {s t : Testfs} {c : Memory} {v w : Volume} {E : ℕ → List Entry} {S : Store} {i d : ℕ}
  {name : CString} {e : Entry} {type : InodeType}

/-- The kind of a new inode. -/
def newNode (type : InodeType) : Node FileData :=
  if type = .dir then .directory else .file .empty

theorem kindOf_made {es : List Entry} (hm : Made d es name type i v w) :
    kindOf w i = newNode type := by
  by_cases ht : type = .dir
  · rw [newNode,if_pos ht]
    exact kindOf_directory (hm.dir ht).iType
  · have hinode := hm.file ht
    have hfile : ¬Directory w i := by
      rw [Directory,hinode]
      cases type with
      | none => decide
      | file => decide
      | dir => exact absurd rfl ht
    have hzero : logical w i = fun _ _ => 0 :=
      logical_of_ref_zero fun l => by cases l <;> simp [ref,hinode,Dinode.zero]
    have hcont : contents w i = fun _ => 0 := by
      funext q
      rw [contents,hzero]
    rw [newNode,if_neg ht,kindOf_file hfile,dataOf,hcont,hinode]
    rfl

theorem pictures_made (h : Pictures v E d S) (ht : Tree v E) (hd : Directory v d)
    (hnew : lookup name (E d) = none) (hm : Made d (E d) name type i v w) :
    Pictures w (madeEntries E d name type i) d
      (S.make name (newNode type) (h.find_none ht hd hnew)) := by
  have hi : ¬Marked v i := by
    rw [Marked,hm.unused]
    simp
  have hedge (a : ℕ) (m : CString) (x : ℕ) :
      Edge (madeEntries E d name type i) a m x ↔ Edge E a m x ∨ (a = d ∧ m = name ∧ x = i) :=
    edge_madeEntries ht hd hi hm.lt hnew a m x
  have hkind : ∀ j, Marked v j → kindOf w j = kindOf v j := by
    intro j hj
    by_cases hjd : j = d
    · subst hjd
      rw [kindOf_directory hd,kindOf_directory hm.isDir.iType]
    · have hji : j ≠ i := by
        rintro rfl
        exact hi hj
      exact kindOf_congr (hm.inode j hjd hji) (hm.logical j hjd hji)
  have hfind := h.find_none ht hd hnew
  have hshows := h.shows.make ht.isTree h.path S.cwd_dir (S.node_of_find hfind) hi hedge hkind
  rw [kindOf_made hm] at hshows
  exact ⟨hshows,h.path.mono fun a m x he => (hedge a m x).mpr (.inl he)⟩

theorem cmdCreateType_simulates (h : Ready s c v E) (hp : Pictures v E c.curDir S) {cmd : Command}
    (hcmd : cmd ∈ [.create,.mkdir]) (name : CString)
    (hmake : ∀ hf, Step S cmd [name] (0,.nothing) (S.make name (newNode type) hf)) :
    Wlp (cmdCreateType type [name]) s fun r t => Simulates S cmd [name] r t := by
  cases hlook : lookup name (E c.curDir) with
  | some e =>
    intro r t hr
    rw [cmdCreateType_present h type hlook] at hr
    cases hr
    exact hp.unchanged h (Same.refl v) rfl (.present hcmd (hp.find_some h.tree h.curDir hlook))
  | none =>
    have hfind := hp.find_none h.tree h.curDir hlook
    refine ((cmdCreateType_spec h type name).and ((cmdCreateType_output type name s).and
      (cmdCreateType_lacks h hlook type))).mono ?_
    rintro ⟨r,out⟩ t ⟨⟨hr,w,ht,hs⟩ | ⟨hr,hnew,i,w,hm,ht⟩,hout,hlacks⟩
    · obtain rfl : out = .nothing := hout
      obtain ⟨e,he,hre⟩ := hlacks hr
      obtain rfl : r = e.ret := hre
      exact hp.unchanged ht hs rfl (.noRoom hcmd hfind he)
    · obtain rfl : out = .nothing := hout
      obtain rfl : r = 0 := hr
      exact ⟨_,w,_,_,ht,pictures_made hp h.tree h.curDir hnew hm,hmake _⟩

/-! ### Removing -/

/-- An entry that keeps its directory from being removed is below it. -/
theorem exists_child (h : Pictures v E d S) (ht : Tree v E) {p : List CString}
    (hp : Path 0 (Edge E) p i) (hno : ¬Removable v i (E i)) :
    ∃ m, S.tree.node (p ++ [m]) ≠ none := by
  simp only [Removable,not_forall] at hno
  obtain ⟨-,e,he,hchild⟩ := hno
  rw [Bool.not_eq_false,Entry.isChild] at hchild
  simp only [Bool.and_eq_true,decide_eq_true_eq] at hchild
  obtain ⟨hl,h1,h2⟩ := hchild
  exact ⟨e.name,(h.shows.node_below ht.isTree hp).mpr ⟨_,edge_of_live he hl h1 h2⟩⟩

theorem pictures_unmade (h : Pictures v E d S) (ht : Tree v E) (hd : Directory v d)
    (he : Edge E d name i) (hrem : Removable v i (E i)) (hu : Unmade d (E d) name i v w)
    (hleaf : ∀ m, S.tree.node (S.cwd ++ [name] ++ [m]) = none) :
    Pictures w (unmadeEntries E d name i) d (S.remove name hleaf) := by
  have hno := ht.leaf_of_removable hrem
  have hedge := edge_unmadeEntries ht he hno
  have hne := ht.isTree.ne_of_edge he
  have hkind : ∀ j, j ≠ i → kindOf w j = kindOf v j := by
    intro j hj
    by_cases hjd : j = d
    · subst hjd
      rw [kindOf_directory hd,kindOf_directory hu.isDir.iType]
    · exact kindOf_congr (hu.inode j hjd hj) (hu.logical j hjd hj)
  exact ⟨h.shows.remove ht.isTree h.path he hno hleaf hedge hkind,
    (Path.prune_iff ht.isTree he hno hedge).mpr ⟨h.path,hne⟩⟩

theorem cmdRm_simulates (h : Ready s c v E) (hp : Pictures v E c.curDir S) (name : CString) :
    Wlp (cmdRm [name]) s fun r t => Simulates S .rm [name] r t := by
  rcases refusal_or_leaving v E c.curDir name with ⟨err,hno⟩ | ⟨e,hl⟩
  · refine (cmdRm_refused h hno).wlp.mono ?_
    rintro r t ⟨rfl,ht⟩
    refine hp.unchanged ht (Same.refl v) rfl ?_
    cases hno with
    | dots hname => exact .rmDots hname
    | absent _ _ hlook => exact .rmMissing (hp.find_none h.tree h.curDir hlook)
    | notEmpty h1 h2 hlook hno =>
      have hpath := hp.resolve_path h.tree h.curDir hlook
      rw [S.resolve_of_ne h1 h2] at hpath
      obtain ⟨m,hm⟩ := exists_child hp h.tree hpath hno
      exact .rmFull h1 h2 hm
  · refine (cmdRm_leaves h hl).mono ?_
    rintro r t ⟨rfl,w,hu,ht⟩
    have hpath := hp.resolve_path h.tree h.curDir hl.lookup
    rw [S.resolve_of_ne hl.ne_dot hl.ne_dotdot] at hpath
    have hleaf : ∀ m, S.tree.node (S.cwd ++ [name] ++ [m]) = none := by
      intro m
      by_contra hm
      obtain ⟨j,hj⟩ := (hp.shows.node_below h.tree.isTree hpath).mp hm
      exact h.tree.leaf_of_removable hl.removable m j hj
    have hfind : S.find name ≠ none := by
      rw [hp.find_some h.tree h.curDir hl.lookup]
      simp
    exact ⟨_,w,_,_,ht,pictures_unmade hp h.tree h.curDir (hl.edge h.tree) hl.removable hu hleaf,
      .rm hl.ne_dot hl.ne_dotdot hfind hleaf⟩

end Names

/-! ## Reading and writing files -/

section Files

variable {s t : Testfs} {c : Memory} {v w : Volume} {E : ℕ → List Entry} {S : Store} {i d : ℕ}
  {name : CString} {e : Entry}

theorem testfsGetFileInode_reply (h : Ready s c v E) (name : CString) :
    Wlp (testfsGetFileInode c.curDir name) s fun r t => match lookup name (E c.curDir) with
      | none => r = .error Errno.noent.ret ∧ Valid t c v
      | some e => (Directory v e.nr.toNat ∧ r = .error Errno.isdir.ret ∧ Valid t c v) ∨
          (¬Directory v e.nr.toNat ∧ r = .ok e.nr.toNat ∧ Valid t (c.hold e.nr.toNat) v) := by
  rw [testfsGetFileInode,testfsGetFileInodeWith,Wlp.bind_iff]
  refine (lookup_reply h name).mono ?_
  rintro r t ⟨rfl,hr⟩
  cases hlook : lookup name (E c.curDir) with
  | none =>
    rw [hlook] at hr
    obtain rfl : r = Errno.noent.ret := hr
    exact Wlp.pure_iff.mpr ⟨rfl,h.valid⟩
  | some e =>
    rw [hlook] at hr
    obtain rfl : r = e.nr.toNat := hr
    rw [if_neg (by omega),Int.toNat_natCast]
    simp only [Wlp.bind_iff]
    refine (testfsGetInode_valid h.valid _).mono fun _ t1 h1 => ?_
    refine (inodeOf_spec h1.stands _).mono ?_
    rintro inode t2 ⟨rfl,-,hv⟩
    rw [hv,Wlp.ite_iff]
    constructor
    · intro hd
      rw [Wlp.bind_iff]
      refine (testfsPutInode_valid h1 _).mono fun _ t3 h3 => ?_
      exact Wlp.pure_iff.mpr (.inl ⟨hd,rfl,Valid.of_release h.counted h3⟩)
    · intro hd
      exact Wlp.pure_iff.mpr (.inr ⟨hd,rfl,h1⟩)

theorem address_arith (o : ℕ) :
    address o/blockSize = (blockNr o).toNat ∧ address o % blockSize = o % blockSize := by
  rw [address]
  generalize (blockNr o).toNat = n
  simp only [blockSize]
  omega

/-- `testfs_read_data` inside of a file copies from one block. -/
theorem testfsReadData_reply (hs : Stands s c v) (h : Accounts v (ref v)) (i o n : ℕ)
    (hin : toInt64 (o + toInt64 n) ≤ (v.inode i).iSize.toInt) :
    Wlp (testfsReadData i o n) s fun r _ => (r.1 < 0 ∧ ¬Accessible o n) ∨
      (r = ((n : ℤ),copyOut (contents v i) (address o) n) ∧ Accessible o n) := by
  obtain ⟨hdiv,hmod⟩ := natCast_tdiv_blockSize o
  have hsize : toSize ((o % blockSize : ℕ) + (n : ℤ)) = (o % blockSize + n) % 2^64 := by
    rw [← Nat.cast_add,toSize]
    omega
  rw [testfsReadData,Wlp.bind_iff]
  refine (inodeOf_spec hs i).mono ?_
  rintro inode t ⟨rfl,-,hv⟩
  simp only [hv]
  rw [if_neg (not_lt.mpr hin),hdiv,hmod,hsize,← blockNr_natCast,Wlp.ite_iff]
  constructor
  · intro hbig
    refine Wlp.pure_iff.mpr (.inl ⟨by decide,fun ha => ?_⟩)
    have hfit := ha.fit
    have hle := Nat.mod_le (o % blockSize + n) (2^64)
    omega
  · intro _
    rw [Wlp.bind_iff]
    refine (testfsReadBlock_spec hs h i _).mono ?_
    rintro ⟨r,block⟩ t1 ⟨rfl,h0,⟨hfar,hneg⟩ | ⟨hlt,hr,hb⟩⟩
    · rw [if_pos hneg]
      exact Wlp.pure_iff.mpr (.inl ⟨hneg,fun ha => absurd ha.lt (Nat.not_lt.mpr hfar)⟩)
    · simp only at hr hb ⊢
      have hnot : ¬r < 0 := by rw [hr]; exact not_lt.mpr (Int.natCast_nonneg _)
      rw [hb,if_neg hnot,Wlp.bind_iff,Wlp.guard_iff,Int.toNat_natCast]
      rintro ⟨-,hfit⟩
      refine Wlp.pure_iff.mpr (.inr ⟨Prod.ext rfl ?_,h0,hlt,hfit⟩)
      obtain ⟨hpdiv,hpmod⟩ := address_arith o
      rw [← copyOut_contents v i (hpmod ▸ hfit),hpdiv,hpmod]

theorem readFile_reply (h : Valid s c v) (i o n : ℕ) :
    Wlp (readFile i o n) s fun r t => Valid t (c.release i) v ∧
      (((v.inode i).iSize.toInt < toInt64 (o + toInt64 n) ∧ r = fails .inval) ∨
      (toInt64 (o + toInt64 n) ≤ (v.inode i).iSize.toInt ∧
        ((r = fails (readError n) ∧ ¬Accessible o n) ∨
        (r = ((n : ℤ),Output.data (copyOut (contents v i) (address o) n)) ∧ Accessible o n)))) := by
  -- the inode is dropped in any case
  have hput : ∀ {t : Testfs} {r : Reply} {P : Reply → Prop}, Valid t c v → P r →
      Wlp (testfsPutInode i >>= fun _ => pure r) t fun r t => Valid t (c.release i) v ∧ P r := by
    intro t r P ht hr
    rw [Wlp.bind_iff]
    exact (testfsPutInode_valid ht i).mono fun _ t1 h1 => Wlp.pure_iff.mpr ⟨h1,hr⟩
  rw [readFile,readFileWith,Wlp.bind_iff]
  refine (inodeOf_spec h.stands i).mono ?_
  rintro inode t ⟨rfl,-,hv⟩
  rw [hv,Wlp.ite_iff]
  refine ⟨fun hbeyond => hput h (.inl ⟨hbeyond,rfl⟩),fun hin => ?_⟩
  rw [not_lt] at hin
  rw [Wlp.ite_iff]
  constructor
  · intro hbig
    refine hput h (.inr ⟨hin,.inl ⟨by rw [readError,if_pos hbig],fun ha => ?_⟩⟩)
    have hfit := ha.fit
    rw [toSize] at hbig
    simp only [blockSize] at hfit
    omega
  · intro hsmall
    rw [Wlp.bind_iff]
    refine ((keeps_testfsReadData i o n t).and ((testfsReadData_error h.stands h.accounts i o n).and
      (testfsReadData_reply h.stands h.accounts i o n hin))).mono ?_
    rintro ⟨r,buf⟩ t1 ⟨rfl,herr,⟨hneg,hno⟩ | ⟨hr,ha⟩⟩
    · obtain rfl : r = Errno.nosys.ret := herr hneg
      simp only
      rw [if_neg (by decide)]
      exact hput h (.inr ⟨hin,.inl ⟨by rw [readError,if_neg hsmall]; rfl,hno⟩⟩)
    · obtain ⟨rfl,rfl⟩ := Prod.mk.inj hr
      simp only
      rw [if_pos (Int.natCast_nonneg n)]
      exact hput h (.inr ⟨hin,.inr ⟨rfl,ha⟩⟩)

theorem offsetOf_of_nonneg {os : CString} {o : ℤ} (ho : strToOffset os = some o) (h0 : ¬o < 0) :
    offsetOf os = some o.toNat := by
  simp only [offsetOf,ho]
  rw [if_neg h0]

theorem cmdRead_simulates (h : Ready s c v E) (hp : Pictures v E c.curDir S)
    (name offset size : CString) :
    Wlp (cmdRead [name,offset,size]) s fun r t => Simulates S .read [name,offset,size] r t := by
  have hnumber : offsetOf offset = none ∨ strToSize size = none →
      Wlp (pure (fails .inval) : FsM Reply) s fun r t =>
        Simulates S .read [name,offset,size] r t :=
    fun hn => Wlp.pure_iff.mpr (hp.unchanged h (Same.refl v) rfl (.readNumber hn))
  simp only [cmdRead,cmdReadWith,monadLift_self]
  cases ho : strToOffset offset with
  | none => exact hnumber (.inl (by simp only [offsetOf,ho]))
  | some o =>
    simp only
    rw [Wlp.ite_iff]
    refine ⟨fun hneg => hnumber (.inl (by simp only [offsetOf,ho]; rw [if_pos hneg])),fun h0 => ?_⟩
    have hoff := offsetOf_of_nonneg ho h0
    lift o to ℕ using not_lt.mp h0
    rw [Int.toNat_natCast] at hoff
    cases hn : strToSize size with
    | none => exact hnumber (.inr hn)
    | some n =>
      simp only [Wlp.bind_iff,Wlp.get_iff]
      rw [h.curDir_eq]
      refine (testfsGetFileInode_reply h name).mono fun r t hr => ?_
      cases hlook : lookup name (E c.curDir) with
      | none =>
        rw [hlook] at hr
        obtain ⟨rfl,ht⟩ := hr
        exact Wlp.pure_iff.mpr (hp.unchanged (h.unchanged ht (Same.refl v)) (Same.refl v) rfl
          (.readMissing hoff hn (hp.find_none h.tree h.curDir hlook)))
      | some e =>
        rw [hlook] at hr
        have hfind := hp.find_some h.tree h.curDir hlook
        rcases hr with ⟨hd,rfl,ht⟩ | ⟨hd,rfl,ht⟩
        · rw [kindOf_directory hd] at hfind
          exact Wlp.pure_iff.mpr (hp.unchanged (h.unchanged ht (Same.refl v)) (Same.refl v) rfl
            (.readDirectory hoff hn hfind))
        · rw [kindOf_file hd] at hfind
          refine (readFile_reply ht e.nr.toNat o n).mono ?_
          rintro r t1 ⟨h1,hr⟩
          refine hp.unchanged (h.unchanged (Valid.of_release h.counted h1) (Same.refl v))
            (Same.refl v) rfl ?_
          rcases hr with ⟨hbeyond,rfl⟩ | ⟨hin,⟨rfl,hno⟩ | ⟨rfl,ha⟩⟩
          · exact .readBeyond hoff hn hfind hbeyond
          · exact .readRefused hoff hn hfind hin hno
          · exact .read hoff hn hfind hin ha

theorem pictures_wrote (h : Pictures v E d S) (ht : Tree v E) (hd : Directory v d)
    (hlook : lookup name (E d) = some e) (hfile : ¬Directory v e.nr.toNat)
    (hfind : S.find name = some (.file (dataOf v e.nr.toNat)))
    {o : ℕ} {buf : List Byte} (ho : o < 2^63) (hst : Stored e.nr.toNat o buf v w) :
    Pictures (w.sync e.nr.toNat) E d (S.put name ((dataOf v e.nr.toNat).write o buf) hfind) := by
  have hw := hst.written
  have hn : toInt32 (o/blockSize : ℕ) = (blockNr o).toNat := by
    rw [← blockNr_natCast,Int.toNat_of_nonneg hst.nonneg]
  have hsize := toInt_iSize_of_written hw (add_lt_of_toInt32 ho hn hw.offset_le)
  have hself : kindOf (w.sync e.nr.toNat) e.nr.toNat =
      .file ((dataOf v e.nr.toNat).write o buf) := by
    have hdir : ¬Directory (w.sync e.nr.toNat) e.nr.toNat := by
      show ¬(w.inode e.nr.toNat).iType = _
      rw [hw.iType]
      exact hfile
    rw [kindOf_file hdir,FileData.write]
    simp only [dataOf,address]
    rw [← hsize,← Written.contents_eq hw]
    rfl
  refine ⟨h.shows.put ht.isTree (h.resolve_path ht hd hlook) hfind hself fun j hj => ?_,h.path⟩
  exact kindOf_congr (hw.frame.inode j hj) (hw.frame.logical j hj)

/-- Why `testfs_write_data` fails at an offset. -/
inductive WriteFails (o n : ℕ) : Errno → Prop
  | outside (h : ¬Accessible o n) : WriteFails o n .nosys
  | full (h : (blockNr o).toNat < nrLogical) : WriteFails o n .nospc

theorem writeFails_of_error {o n : ℕ} {r : ℤ}
    (h : (r = Errno.nosys.ret ∧ (blockSize < toSize ((o : ℤ).tmod blockSize + n) ∨
        nrLogical ≤ (toInt32 ((o : ℤ).tdiv blockSize)).toNat)) ∨
      (r = Errno.nospc.ret ∧ (toInt32 ((o : ℤ).tdiv blockSize)).toNat < nrLogical)) :
    ∃ e, WriteFails o n e ∧ r = e.ret := by
  obtain ⟨hdiv,hmod⟩ := natCast_tdiv_blockSize o
  rw [hdiv,hmod,← blockNr_natCast] at h
  rcases h with ⟨rfl,hbig | hfar⟩ | ⟨rfl,hlt⟩
  · refine ⟨_,.outside fun ha => ?_,rfl⟩
    have hfit := ha.fit
    rw [← Nat.cast_add,toSize] at hbig
    omega
  · exact ⟨_,.outside fun ha => absurd ha.lt (Nat.not_lt.mpr hfar),rfl⟩
  · exact ⟨_,.full hlt,rfl⟩

/-- `testfs_write_data` fails without an effect, or has stored the whole buffer. -/
theorem testfsWriteData_reply (hm : i ∈ c.dirty) (h : Valid s c v) (hi : Held c i)
    (buf : List Byte) (o : ℕ) :
    Wlp (testfsWriteData i buf o) s fun r t =>
      (∃ e, WriteFails o buf.length e ∧ r = e.ret ∧ Valid t c v) ∨
      (r = buf.length ∧ ∃ w, Valid t c w ∧ Stored i o buf v w) := by
  refine ((testfsWriteData_stored hm h hi buf o).and ((testfsWriteData_error hm h.stands h.accounts buf o).and
    (testfsWriteData_spec (c := c.resize s.dev.size) hm (h.stands.resize le_rfl) h.accounts buf
      o))).mono ?_
  rintro r t ⟨hst,herr,⟨hneg,-⟩ | ⟨-,hr,-⟩⟩
  · obtain ⟨e,he,hre⟩ := writeFails_of_error (herr hneg)
    exact .inl ⟨e,he,hre,(hst.resolve_right fun hc => absurd hneg (not_lt.mpr hc.1)).2⟩
  · exact .inr ⟨hr,(hst.resolve_left fun hc => absurd hc.1 (by omega)).2⟩

theorem cmdWrite_simulates (h : Ready s c v E) (hp : Pictures v E c.curDir S)
    (name offset buf : CString) :
    Wlp (cmdWrite [name,offset,buf]) s fun r t => Simulates S .write [name,offset,buf] r t := by
  have hnumber : offsetOf offset = none → Wlp (pure (fails .inval) : FsM Reply) s fun r t =>
      Simulates S .write [name,offset,buf] r t :=
    fun hn => Wlp.pure_iff.mpr (hp.unchanged h (Same.refl v) rfl (.writeNumber hn))
  simp only [cmdWrite,cmdWriteWith,monadLift_self]
  cases ho : strToOffset offset with
  | none => exact hnumber (by simp only [offsetOf,ho])
  | some o =>
    simp only
    rw [Wlp.ite_iff]
    refine ⟨fun hneg => hnumber (by simp only [offsetOf,ho]; rw [if_pos hneg]),fun h0 => ?_⟩
    have hoff := offsetOf_of_nonneg ho h0
    have hlt := lt_of_strToOffset ho
    lift o to ℕ using not_lt.mp h0
    rw [Int.toNat_natCast] at hoff
    simp only [Wlp.bind_iff,Wlp.get_iff]
    rw [h.curDir_eq]
    refine (testfsGetFileInode_reply h name).mono fun r t hr => ?_
    cases hlook : lookup name (E c.curDir) with
    | none =>
      rw [hlook] at hr
      obtain ⟨rfl,ht⟩ := hr
      exact Wlp.pure_iff.mpr (hp.unchanged (h.unchanged ht (Same.refl v)) (Same.refl v) rfl
        (.writeMissing hoff (hp.find_none h.tree h.curDir hlook)))
    | some e =>
      rw [hlook] at hr
      have hfind := hp.find_some h.tree h.curDir hlook
      rcases hr with ⟨hd,rfl,ht⟩ | ⟨hd,rfl,ht⟩
      · rw [kindOf_directory hd] at hfind
        exact Wlp.pure_iff.mpr (hp.unchanged (h.unchanged ht (Same.refl v)) (Same.refl v) rfl
          (.writeDirectory hoff hfind))
      · rw [kindOf_file hd] at hfind
        simp only [Wlp.bind_iff]
        refine (testfsWriteData_reply (Set.mem_insert _ _) (ht.touch _) (held_hold c _) buf.1 o).mono ?_
        intro r t1 hr
        -- the inode is stored and dropped
        have hend : ∀ w, Valid t1 ((c.hold e.nr.toNat).touch e.nr.toNat) w →
            Wlp (testfsSyncInode e.nr.toNat) t1 fun _ t2 =>
              Wlp (testfsPutInode e.nr.toNat) t2 fun _ t3 => Valid t3 c (w.sync e.nr.toNat) := by
          intro w hw
          refine (testfsSyncInode_valid hw _).mono fun _ t2 h2 => ?_
          refine (testfsPutInode_valid h2 _).mono fun _ t3 h3 => ?_
          have h4 : Valid t3 (((c.touch e.nr.toNat).hold e.nr.toNat).release e.nr.toNat)
              (w.sync e.nr.toNat) := h3.mono rfl le_rfl rfl fun j hj => ⟨hj.1.1,hj.2⟩
          exact undo_memory h.counted h4
        rcases hr with ⟨err,herr,rfl,hw⟩ | ⟨rfl,w,hw,hst⟩
        · refine (hend v hw).mono fun _ t2 h2 => h2.mono fun _ t3 h3 => Wlp.pure_iff.mpr ?_
          rw [Volume.sync_of_eq v _ (congrFun h.synced _)] at h3
          refine hp.unchanged (h.unchanged h3 (Same.refl v)) (Same.refl v) rfl ?_
          cases herr with
          | outside hno => exact .writeRefused hoff hfind hno
          | full hlt => exact .writeFull hoff hfind hlt
        · refine (hend w hw).mono fun _ t2 h2 => h2.mono fun _ t3 h3 => Wlp.pure_iff.mpr ?_
          have hmark := marked_of_lookup h.tree hlook
          have hne : c.curDir ≠ e.nr.toNat := fun hc => hd (hc ▸ h.curDir)
          have hwr := hst.written
          have hready : Ready t3 c (w.sync e.nr.toNat) E :=
            { valid := h3
              tree := (h.tree.write hmark hd hwr.frame hwr.iType).congr rfl rfl rfl rfl
              synced := disk_of_frame h.synced hwr.frame
              counted := h.counted
              held := h.held
              dirty := h.dirty
              curDir := by
                show (w.inode c.curDir).iType = _
                rw [hwr.frame.inode _ hne]
                exact h.curDir }
          exact ⟨c,_,E,_,hready,pictures_wrote hp h.tree h.curDir hlook hd hfind (by omega) hst,
            .write hoff hfind ⟨hst.nonneg,hwr.block_lt,hwr.offset_le⟩⟩

end Files

end StoreChanges
end OsLabs

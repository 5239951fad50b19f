import Mathlib.Data.BitVec
import Mathlib.Tactic
import OsLabs.Bytes
import OsLabs.Wlp
import OsLabs.FsModel
import OsLabs.DirModel
import OsLabs.FsVolume
import OsLabs.FsAccounts
import OsLabs.Dirents
import OsLabs.DirMap
import OsLabs.DirOps
import OsLabs.FsCreation
import OsLabs.RootedTree
import OsLabs.FsTree
import OsLabs.FsCommands
import OsLabs.FsReading
import OsLabs.FsWalks
import OsLabs.FsSessions
import OsLabs.FsGrowth
import OsLabs.DirReplies

/-!
# Directories are finite maps

`Listing s E` says what the program sees of the directories: from offset 0 on `testfs_next_dirent`
returns the entries `E d` of the directory `d` one after the other up to its size, and
`testfs_dir_name_to_inode_nr` looks up names in them. In every state between two commands there
is such a listing, without two live entries of one name, and the commands that create and remove
insert into the map and delete from it.
-/

namespace OsLabs
namespace DirectoryMaps

open Bytes FsModel DirModel FsVolume FsAccounts Dirents DirMap DirOps FsCreation
open RootedTree FsTree FsCommands FsReading FsWalks FsSessions FsGrowth DirReplies

/-- From the offset `o` on `testfs_next_dirent` returns these entries and then `NULL`; none of
them goes across the end of a block, and the last one ends at the size of the directory. -/
inductive Decodes (s : Testfs) (d : ℕ) : ℕ → List Entry → Prop
  | nil {o : ℕ} : (testfsNextDirent d o).run s = some (none,s) →
      o = ((volume s).inode d).iSize.toNat → Decodes s d o []
  | cons {o : ℕ} {e : Entry} {es : List Entry} :
      (testfsNextDirent d o).run s = some (some (e.toDirent,((o + e.size : ℕ) : ℤ)),s) →
      o % blockSize + e.size ≤ blockSize → Decodes s d (o + e.size) es → Decodes s d o (e::es)

/-- What `testfs_dir_name_to_inode_nr` returns for a name. -/
def nrOf (name : CString) (es : List Entry) : ℤ :=
  match lookup name es with
  | none => Errno.noent.ret
  | some e => e.nr.toInt

structure Listing (s : Testfs) (E : ℕ → List Entry) : Prop where
  decodes : ∀ d, Directory (volume s) d → Total (testfsGetInode d) s fun _ t =>
    Decodes t d 0 (E d) ∧
    ∀ n, (testfsDirNameToInodeNr d n).run t = some (nrOf n (E d),t)
  distinct : ∀ d, Distinct (E d)
  empty : ∀ d, ¬Directory (volume s) d → E d = []

section Listings

variable {s t : Testfs} {c : Memory} {v : Volume} {E : ℕ → List Entry} {d : ℕ} {es : List Entry}

theorem decodes_of_laid (h : Valid s c v) (hi : Held c d) (hd : IsDir v d es) {o : ℕ}
    {rest : List Entry} (hl : Laid (contents v d) o rest (v.inode d).iSize.toNat) :
    Decodes s d o rest := by
  induction rest generalizing o with
  | nil =>
    obtain rfl : o = (v.inode d).iSize.toNat := hl
    obtain ⟨r,t,hr,rfl,rfl⟩ := testfsNextDirent_total_nil h hi hd
    exact .nil hr (by rw [h.stands.volume_eq])
  | cons e rest ih =>
    obtain ⟨r,t,hr,rfl,rfl⟩ := testfsNextDirent_total_cons h hi hd hl
    exact .cons hr hl.2.1 (ih hl.2.2)

theorem nrOf_run (h : Valid s c v) (hi : Held c d) (hd : IsDir v d es) (n : CString) :
    (testfsDirNameToInodeNr d n).run s = some (nrOf n es,s) := by
  obtain ⟨r,t,hr,rfl,hnr⟩ := testfsDirNameToInodeNr_total h hi hd n
  rw [hr,nrOf]
  cases hlook : lookup n es with
  | none =>
    rw [hlook] at hnr
    obtain rfl : r = Errno.noent.ret := hnr
    rfl
  | some e =>
    rw [hlook] at hnr
    obtain rfl : r = e.nr.toInt := hnr
    rfl

/-- The entries of the tree are the ones that the program sees. -/
theorem listing_of_valid (h : Valid s c v) (ht : Tree v E) : Listing s E := by
  obtain rfl := h.stands.volume_eq
  refine ⟨fun d hd => ?_,ht.distinct,ht.notDir⟩
  have hlt := ht.lt_of_directory hd
  have hisDir := ht.isDir d hd
  refine ((testfsGetInode_returns h.stands hlt).total (testfsGetInode_valid h d)).mono
    fun _ t hget => ?_
  exact ⟨decodes_of_laid hget (held_hold c d) hisDir hisDir.laid,
    nrOf_run hget (held_hold c d) hisDir⟩

theorem listing_of_ready (h : Ready s c v E) : Listing s E := listing_of_valid h.valid h.tree

theorem nrOf_eq_noent_iff (n : CString) (es : List Entry) :
    nrOf n es = Errno.noent.ret ↔ lookup n es = none := by
  rw [nrOf]
  cases hlook : lookup n es with
  | none => simp
  | some e =>
    have hnr := toInt_of_live (lookup_some hlook).2.1
    have hneg := Errno.ret_neg .noent
    simp only [reduceCtorEq,iff_false]
    omega

/-- The program sees only one listing. -/
theorem Listing.nrOf_eq {E' : ℕ → List Entry} (h : Listing s E) (h' : Listing s E')
    (hd : Directory (volume s) d) (n : CString) : nrOf n (E d) = nrOf n (E' d) := by
  obtain ⟨_,t,hget,-,hn⟩ := h.decodes d hd
  obtain ⟨-,hn'⟩ := (h'.decodes d hd).wlp _ t hget
  have heq := (hn n).symm.trans (hn' n)
  simp only [Option.some.injEq,Prod.mk.injEq,and_true] at heq
  exact heq

theorem nrOf_addEntry {name : CString} {i : ℕ} (h : Distinct es) (hi : i < nrInodes)
    (hnew : lookup name es = none) (n : CString) :
    nrOf n (addEntry ⟨BitVec.ofNat 32 i,name⟩ es) = if n = name then (i : ℤ) else nrOf n es := by
  rw [nrOf,lookup_addEntry h (live_ofNat_inode hi name) hnew]
  by_cases hn : n = name
  · rw [if_pos hn,if_pos hn]
    exact toInt_ofNat_inode hi
  · rw [if_neg hn,if_neg hn,nrOf]

theorem nrOf_killEntry (h : Distinct es) (name n : CString) :
    nrOf n (killEntry name es) = if n = name then Errno.noent.ret else nrOf n es := by
  rw [nrOf,lookup_killEntry h]
  by_cases hn : n = name
  · rw [if_pos hn,if_pos hn]
  · rw [if_neg hn,if_neg hn,nrOf]

end Listings

/-! ## Inserting and deleting -/

/-- The name has been inserted into the directory `d`, with the new inode `i`. -/
structure Inserted (v : Volume) (E E' : ℕ → List Entry) (d : ℕ) (name : CString)
    (type : InodeType) (i : ℕ) : Prop where
  fresh : ¬Marked v i
  absent : lookup name (E d) = none
  entries : E' d = addEntry ⟨BitVec.ofNat 32 i,name⟩ (E d)
  slot : (∃ pre x post, E d = pre ++ x::post ∧ x.live = false ∧ x.len = name.1.length + 1 ∧
    E' d = pre ++ ⟨BitVec.ofNat 32 i,name⟩::post) ∨ E' d = E d ++ [⟨BitVec.ofNat 32 i,name⟩]
  lookup : ∀ n, nrOf n (E' d) = if n = name then (i : ℤ) else nrOf n (E d)
  self : E' i = newEntries type d i
  others : ∀ x, x ≠ d → x ≠ i → E' x = E x

/-- The name of the inode `i` has been deleted from the directory `d`. -/
structure Deleted (E E' : ℕ → List Entry) (d : ℕ) (name : CString) (i : ℕ) : Prop where
  present : nrOf name (E d) = i
  entries : ∃ pre x post, E d = pre ++ x::post ∧ x.live = true ∧ x.name = name ∧
    E' d = pre ++ { x with nr := invalidInodeNr }::post
  lookup : ∀ n, nrOf n (E' d) = if n = name then Errno.noent.ret else nrOf n (E d)
  self : E' i = []
  others : ∀ x, x ≠ d → x ≠ i → E' x = E x

/-- What `cmd_create` and `cmd_mkdir` do with a name: it is there, there is no room for it, or it is
inserted. -/
inductive Creates (s : Testfs) (E : ℕ → List Entry) (type : InodeType) (name : CString) :
    Reply → Testfs → Prop
  | present {e : Entry} (h : lookup name (E s.curDir) = some e) :
      Creates s E type name (fails .exist) s
  | refused {r : ℤ} {t : Testfs} (hr : r < 0) (hnew : lookup name (E s.curDir) = none)
      (hno : ¬Room (volume s) s.curDir (E s.curDir) type name) (ht : Listing t E)
      (hs : Same (volume s) (volume t)) (hcur : t.curDir = s.curDir) :
      Creates s E type name (r,.nothing) t
  | inserted {i : ℕ} {t : Testfs} {E' : ℕ → List Entry} (ht : Listing t E')
      (h : Inserted (volume s) E E' s.curDir name type i) (hcur : t.curDir = s.curDir) :
      Creates s E type name (0,.nothing) t

/-- What `cmd_rm` does with a name: it is refused, or it is deleted. -/
inductive Removes (s : Testfs) (E : ℕ → List Entry) (name : CString) : Reply → Testfs → Prop
  | refused {err : Errno} {t : Testfs} (h : Refusal (volume s) E s.curDir name err)
      (ht : Listing t E) (hs : volume t = volume s) (hcur : t.curDir = s.curDir) :
      Removes s E name (fails err) t
  | deleted {e : Entry} {t : Testfs} {E' : ℕ → List Entry}
      (h : Leaving (volume s) E s.curDir name e) (ht : Listing t E')
      (hd : Deleted E E' s.curDir name e.nr.toNat) (hcur : t.curDir = s.curDir) :
      Removes s E name (0,.nothing) t

section Effects

variable {s t : Testfs} {c : Memory} {v w : Volume} {E : ℕ → List Entry} {d i : ℕ} {name : CString}
  {type : InodeType}

theorem inserted_madeEntries (h : Tree v E) (hd : Directory v d) (hnew : lookup name (E d) = none)
    (hm : Made d (E d) name type i v w) :
    Inserted v E (madeEntries E d name type i) d name type i := by
  have hi : ¬Marked v i := by
    rw [Marked,hm.unused]
    simp
  have hdi : d ≠ i := by
    rintro rfl
    exact hi (h.marked_of_directory hd)
  have hentries := madeEntries_parent E name type hdi
  refine ⟨hi,hnew,hentries,?_,?_,madeEntries_self ..,fun x => madeEntries_other E name type⟩
  · rw [hentries]
    exact addEntry_cases ⟨BitVec.ofNat 32 i,name⟩ (E d)
  · rw [hentries]
    exact nrOf_addEntry (h.distinct d) hm.lt hnew

theorem deleted_unmadeEntries (h : Tree v E) (he : Edge E d name i) :
    Deleted E (unmadeEntries E d name i) d name i := by
  have hdi := h.isTree.ne_of_edge he
  have hentries := unmadeEntries_parent E name hdi
  obtain ⟨-,-,e,hlook,hnr⟩ := (edge_iff (h.distinct d)).mp he
  obtain ⟨hmem,hlive,hname⟩ := lookup_some hlook
  refine ⟨?_,?_,?_,Function.update_self ..,fun x => unmadeEntries_other E name⟩
  · rw [nrOf,hlook]
    simp only
    rw [toInt_of_live hlive,hnr]
  · rcases killEntry_cases name (E d) with ⟨pre,x,post,hE,hx,hkill⟩ | ⟨-,hno⟩
    · obtain ⟨hl,hn⟩ := isNamed_iff.mp hx
      exact ⟨pre,x,post,hE,hl,hn,hentries.trans hkill⟩
    · exact absurd hname (hno e hmem hlive)
  · rw [hentries]
    exact nrOf_killEntry (h.distinct d) name

/-- Creating a name that is there returns `-EEXIST` and changes nothing. -/
theorem cmdCreateType_present (h : Ready s c v E) (type : InodeType) {e : Entry}
    (he : lookup name (E c.curDir) = some e) :
    (cmdCreateType type [name]).run s = some (fails .exist,s) := by
  have htotal : Total (cmdCreateType type [name]) s fun r t => r = fails .exist ∧ t = s := by
    refine Total.bind (Total.get ?_)
    rw [h.curDir_eq]
    refine Total.bind (Total.bind
      ((testfsDirNameToInodeNr_total h.valid h.held h.isDir name).mono ?_))
    rintro r t ⟨rfl,hr⟩
    rw [he] at hr
    obtain rfl : r = e.nr.toInt := hr
    rw [if_pos (of_decide_eq_true (lookup_some he).2.1)]
    exact Total.pure (Total.pure ⟨rfl,rfl⟩)
  obtain ⟨r,t,hr,rfl,rfl⟩ := htotal
  exact hr

theorem Creates.inserts (h : Creates s E type name (0,.nothing) t) : ∃ i E', Listing t E' ∧
    Inserted (volume s) E E' s.curDir name type i ∧ t.curDir = s.curDir := by
  generalize hr : ((0,.nothing) : Reply) = r at h
  rcases h with ⟨-⟩ | ⟨hneg,-⟩ | ⟨ht,hi,hcur⟩
  · cases hr
  · cases hr
    exact absurd hneg (lt_irrefl 0)
  · exact ⟨_,_,ht,hi,hcur⟩

theorem Removes.deletes (h : Removes s E name (0,.nothing) t) : ∃ i E', Listing t E' ∧
    Deleted E E' s.curDir name i ∧ t.curDir = s.curDir := by
  generalize hr : ((0,.nothing) : Reply) = r at h
  rcases h with @⟨err,_,-⟩ | ⟨-,ht,hd,hcur⟩
  · have hzero : 0 = err.ret := congrArg Prod.fst hr
    exact absurd hzero (Errno.ret_neg err).ne'
  · exact ⟨_,_,ht,hd,hcur⟩

theorem cmdCreateType_creates (h : Ready s c (volume s) E) (type : InodeType) (name : CString) :
    Wlp (cmdCreateType type [name]) s (Creates s E type name) := by
  have hcur := h.curDir_eq
  cases hlook : lookup name (E c.curDir) with
  | some e =>
    intro r t hr
    rw [cmdCreateType_present h type hlook] at hr
    cases hr
    exact .present (hcur ▸ hlook)
  | none =>
    have hspec := (cmdCreateType_spec h type name).and (cmdCreateType_output type name s)
    rintro ⟨r,out⟩ t hrun
    obtain ⟨⟨hneg,w,ht,hs⟩ | ⟨hr,-,i,w,hm,ht⟩,hout⟩ := hspec _ t hrun
    · obtain rfl : out = .nothing := hout
      refine .refused hneg (hcur ▸ hlook) (fun hroom => ?_) (listing_of_ready ht)
        (ht.valid.stands.volume_eq ▸ hs) (ht.curDir_eq.trans hcur.symm)
      -- with room for it the name is made
      rw [hcur] at hroom
      obtain ⟨hzero,-⟩ := (cmdCreateType_total h hroom).wlp _ t hrun
      cases hzero
      exact absurd hneg (lt_irrefl 0)
    · obtain rfl : out = .nothing := hout
      obtain rfl : r = 0 := hr
      refine .inserted (i := i) (listing_of_ready ht) ?_ (ht.curDir_eq.trans hcur.symm)
      rw [hcur]
      exact inserted_madeEntries h.tree h.curDir hlook hm

/-- `cmd_create` and `cmd_mkdir` return when the name is there and when there is room for it. -/
theorem cmdCreateType_returns (h : Ready s c (volume s) E)
    (hname : lookup name (E s.curDir) ≠ none ∨ Room (volume s) s.curDir (E s.curDir) type name) :
    Returns (cmdCreateType type [name]) s := by
  rw [h.curDir_eq] at hname
  rcases hname with hlook | hroom
  · obtain ⟨e,he⟩ := Option.ne_none_iff_exists'.mp hlook
    exact ⟨_,s,cmdCreateType_present h type he⟩
  · exact (cmdCreateType_total h hroom).returns

theorem cmdRm_removes (h : Ready s c (volume s) E) (name : CString) :
    Wlp (cmdRm [name]) s (Removes s E name) := by
  have hcur := h.curDir_eq
  rcases refusal_or_leaving (volume s) E c.curDir name with ⟨err,hno⟩ | ⟨e,hl⟩
  · refine (cmdRm_refused h hno).wlp.mono ?_
    rintro r t ⟨rfl,ht⟩
    exact .refused (hcur ▸ hno) (listing_of_ready ht) ht.valid.stands.volume_eq
      (ht.curDir_eq.trans hcur.symm)
  · refine (cmdRm_leaves h hl).mono ?_
    rintro r t ⟨rfl,w,-,ht⟩
    refine .deleted (hcur ▸ hl) (listing_of_ready ht) ?_ (ht.curDir_eq.trans hcur.symm)
    rw [hcur]
    exact deleted_unmadeEntries h.tree (hl.edge h.tree)

theorem cmdRm_answers (h : Ready s c (volume s) E)
    (hf : ∀ e, Leaving (volume s) E s.curDir name e → Freeable (volume s) e.nr.toNat) :
    Returns (cmdRm [name]) s := by
  rw [h.curDir_eq] at hf
  rcases refusal_or_leaving (volume s) E c.curDir name with ⟨err,hno⟩ | ⟨e,hl⟩
  · exact (cmdRm_refused h hno).returns
  · exact cmdRm_returns h hl (hf e hl)

end Effects

/-- Directories are finite maps between any two commands. The commands that create and remove names
insert and delete, or say why not and change nothing; they return whenever nothing is amiss with the
room for a new name or with the blocks of an inode that goes. -/
theorem directories_are_maps {s : Testfs} (h : FsReachable s) : ∃ E, Listing s E ∧
    (∀ type name, Wlp (cmdCreateType type [name]) s (Creates s E type name)) ∧
    (∀ type name,
      lookup name (E s.curDir) ≠ none ∨ Room (volume s) s.curDir (E s.curDir) type name →
      Returns (cmdCreateType type [name]) s) ∧
    (∀ name, Wlp (cmdRm [name]) s (Removes s E name)) ∧
    ∀ name, (∀ e, Leaving (volume s) E s.curDir name e → Freeable (volume s) e.nr.toNat) →
      Returns (cmdRm [name]) s := by
  obtain ⟨c,E,hr⟩ := ready_of_reachable h
  exact ⟨E,listing_of_ready hr,cmdCreateType_creates hr,fun _ _ => cmdCreateType_returns hr,
    cmdRm_removes hr,fun _ => cmdRm_answers hr⟩

/-- A file is created and cannot be created again; it is removed and cannot be removed again. -/
theorem file_comes_and_goes :
    (∃ i E E', Listing freshTestfs E ∧ Listing fileTestfs E' ∧
      Inserted (volume freshTestfs) E E' freshTestfs.curDir fileName .file i) ∧
    (cmdCreate [fileName]).run fileTestfs = some (fails .exist,fileTestfs) ∧
    (∃ i E E', Listing dirTestfs E ∧ Listing usedTestfs E' ∧
      Deleted E E' dirTestfs.curDir fileName i) ∧
    ∃ t, (cmdRm [fileName]).run usedTestfs = some (fails .noent,t) := by
  obtain ⟨E₀,h₀,hcreate₀,-⟩ := directories_are_maps freshTestfs_reachable
  obtain ⟨E₁,h₁,hcreate₁,hreturns₁,-⟩ := directories_are_maps fileTestfs_reachable
  obtain ⟨E₂,h₂,-,-,hrm₂,-⟩ := directories_are_maps dirTestfs_reachable
  obtain ⟨E₃,h₃,-,-,hrm₃,hreturns₃⟩ := directories_are_maps usedTestfs_reachable
  have hdir {s} (h : FsReachable s) : Directory (volume s) s.curDir := by
    obtain ⟨c,E,hr⟩ := ready_of_reachable h
    rw [hr.curDir_eq]
    exact hr.curDir
  obtain ⟨-,-,-,hcreate,-⟩ := fileTestfs_created
  obtain ⟨i,E,hE,hins,hcur₁⟩ := (hcreate₀ .file fileName _ _ hcreate).inserts
  obtain ⟨j,E',hE',hdel,hcur₃⟩ := (hrm₂ fileName _ _ usedTestfs_removed).deletes
  refine ⟨⟨i,E₀,E,h₀,hE,hins⟩,?_,⟨j,E₂,E',h₂,hE',hdel⟩,?_⟩
  · have hpresent : lookup fileName (E₁ fileTestfs.curDir) ≠ none := by
      rw [Ne,← nrOf_eq_noent_iff,h₁.nrOf_eq hE (hdir fileTestfs_reachable),hcur₁,hins.lookup,if_pos rfl]
      exact fun hc => absurd hc (by simp [Errno.ret])
    obtain ⟨r,t,hr⟩ := hreturns₁ .file fileName (.inl hpresent)
    rcases hcreate₁ .file fileName r t hr with ⟨-⟩ | ⟨-,hnew,-⟩ | ⟨-,hi,-⟩
    · exact hr
    · exact absurd hnew hpresent
    · exact absurd hi.absent hpresent
  · have hgone : lookup fileName (E₃ usedTestfs.curDir) = none := by
      rw [← nrOf_eq_noent_iff,h₃.nrOf_eq hE' (hdir usedTestfs_reachable),hcur₃,hdel.lookup,if_pos rfl]
    obtain ⟨r,t,hr⟩ := hreturns₃ fileName fun e hl => by
      rw [hl.lookup] at hgone
      cases hgone
    rcases hrm₃ fileName r t hr with ⟨hno,-⟩ | ⟨hl,-⟩
    · obtain rfl := hno.unique (.absent (by decide) (by decide) hgone)
      exact ⟨t,hr⟩
    · rw [hl.lookup] at hgone
      cases hgone

end DirectoryMaps
end OsLabs

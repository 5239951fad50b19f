import Mathlib.Data.BitVec
import Mathlib.Tactic
import OsLabs.Bytes
import OsLabs.Wlp
import OsLabs.FsModel
import OsLabs.DirModel
import OsLabs.FsVolume
import OsLabs.FsAccounts
import OsLabs.Dirents
import OsLabs.DirMap
import OsLabs.DirOps
import OsLabs.FsTree
import OsLabs.FsCommands
import OsLabs.FsReading
import OsLabs.FsWriting
import OsLabs.BlockNarrowing
import OsLabs.FsGrowth
import OsLabs.InodeReferences

/-!
# Files by name

A file is named in the current directory. `testfs_get_file_inode` finds it and holds its inode,
and giving the inode back fails no assertion, as it is not the inode of the current directory.
-/

namespace OsLabs
namespace FsFiles

open Bytes FsModel DirModel FsVolume FsAccounts Dirents DirMap DirOps
open FsTree FsCommands FsReading FsWriting FsGrowth InodeReferences BlockNarrowing

/-! ## Numbers in the arguments -/

theorem lt_of_strToOffset {str : CString} {offset : ℤ} (h : strToOffset str = some offset) :
    offset < 2^63 := by
  rw [strToOffset] at h
  obtain ⟨⟨negative,n⟩,-,rfl⟩ := Option.map_eq_some_iff.mp h
  simp only
  split <;> omega

theorem lt_of_strToSize {str : CString} {size : ℕ} (h : strToSize str = some size) :
    size < 2^64 := by
  rw [strToSize] at h
  obtain ⟨⟨negative,n⟩,-,rfl⟩ := Option.map_eq_some_iff.mp h
  simp only
  split
  · omega
  · split <;> omega

/-! ## Names -/

/-- The name is that of the file `i` in the current directory. -/
def NamesFile (s : Testfs) (name : CString) (i : ℕ) : Prop :=
  (testfsDirNameToInodeNr s.curDir name).run s = some ((i : ℤ),s) ∧
    (inodeView s i).iType ≠ InodeType.dir.code

section Names

variable {s t : Testfs} {c : Memory} {v : Volume} {E : ℕ → List Entry} {name : CString} {i : ℕ}

theorem namesFile_iff (h : Ready s c v E) :
    NamesFile s name i ↔
      ∃ e, lookup name (E c.curDir) = some e ∧ e.nr.toNat = i ∧ ¬Directory v i := by
  have hview : inodeView s = v.inode := congrArg Volume.inode h.valid.stands.volume_eq
  rw [NamesFile,hview]
  constructor
  · rintro ⟨hrun,hfile⟩
    obtain ⟨-,hr⟩ := (testfsDirNameToInodeNr_total h.valid h.held h.isDir name).wlp _ _
      (h.curDir_eq ▸ hrun)
    cases hlook : lookup name (E c.curDir) with
    | none =>
      rw [hlook] at hr
      have hneg : (i : ℤ) = -2 := hr
      omega
    | some e =>
      rw [hlook] at hr
      have hnr : (i : ℤ) = e.nr.toNat := hr.trans (toInt_of_live (lookup_some hlook).2.1)
      exact ⟨e,rfl,by omega,hfile⟩
  · rintro ⟨e,hlook,rfl,hfile⟩
    exact ⟨lookup_run h hlook,hfile⟩

theorem marked_of_namesFile (h : Ready s c v E) (hf : NamesFile s name i) :
    Marked v i ∧ i < nrInodes := by
  obtain ⟨e,hlook,rfl,-⟩ := (namesFile_iff h).mp hf
  have hmark := marked_of_lookup h.tree hlook
  exact ⟨hmark,h.tree.bound _ hmark⟩

/-- The inode of a file is not dirty between two commands. -/
theorem not_mem_dirty (h : Ready s c v E) (hf : NamesFile s name i) : i ∉ c.dirty := by
  obtain ⟨e,-,rfl,hfile⟩ := (namesFile_iff h).mp hf
  intro hd
  have hcur : e.nr.toNat = c.curDir := h.dirty hd
  exact hfile (hcur ▸ h.curDir)

theorem testfsGetFileInode_total (h : Ready s c v E) (hf : NamesFile s name i) :
    Total (testfsGetFileInode s.curDir name) s (fun r t => r = .ok i ∧ Valid t (c.hold i) v) := by
  obtain ⟨-,hlt⟩ := marked_of_namesFile h hf
  obtain ⟨e,-,-,hfile⟩ := (namesFile_iff h).mp hf
  have hlook : Total (testfsDirNameToInodeNr s.curDir name) s (fun r t => r = i ∧ t = s) :=
    ⟨_,_,hf.1,rfl,rfl⟩
  refine Total.bind (hlook.mono ?_)
  rintro _ _ ⟨rfl,rfl⟩
  rw [if_neg (by omega),Int.toNat_natCast]
  refine Total.bind (((testfsGetInode_returns h.valid.stands hlt).total
    (testfsGetInode_valid h.valid i)).mono ?_)
  intro _ t1 h1
  refine Total.bind (((inodeOf_returns h1.stands (held_hold c i)).total
    (inodeOf_spec h1.stands i)).mono ?_)
  rintro inode t2 ⟨rfl,-,hv⟩
  rw [hv,if_neg hfile]
  exact Total.pure ⟨rfl,h1⟩

theorem putFile_total (h : Ready s c v E) (hf : NamesFile s name i)
    (ht : Valid t (c.hold i) v) : Total (testfsPutInode i) t (fun _ u => Valid u c v) := by
  have hclean : ¬Dirty t i := fun hd => not_mem_dirty h hf (ht.stands.memory.dirty_mem i hd)
  refine ((testfsPutInode_returns ht.stands (held_hold c i) hclean).total
    (testfsPutInode_valid ht i)).mono ?_
  exact fun _ u hu => Valid.of_release h.counted hu

end Names

/-- The only file of a file system. -/
theorem namesFile_onlyFile {s : Testfs} {c : Memory} {E : ℕ → List Entry} {i : ℕ}
    (h : Ready s c (volume s) E) (hfile : OnlyFile i c (volume s) E) :
    NamesFile s fileName i ∧ inodeView s i = { Dinode.zero with iType := InodeType.file.code } := by
  have hself := hfile.self
  have hlt := hfile.lt
  simp only [nrInodes] at hlt
  have hlook : lookup fileName (E c.curDir) = some ⟨BitVec.ofNat 32 i,fileName⟩ := by
    rw [hfile.curDir]
    exact hfile.entry
  refine ⟨(namesFile_iff h).mpr ⟨_,hlook,?_,?_⟩,hself⟩
  · rw [BitVec.toNat_ofNat,Nat.mod_eq_of_lt (by omega)]
  · rw [Directory,hself]
    decide

theorem fileTestfs_namesFile : ∃ i, NamesFile fileTestfs fileName i ∧
    inodeView fileTestfs i = { Dinode.zero with iType := InodeType.file.code } := by
  obtain ⟨i,c,E,hready,hfile⟩ := fileTestfs_ready
  exact ⟨i,namesFile_onlyFile hready hfile⟩

end FsFiles
end OsLabs

import Mathlib.Data.BitVec
import Mathlib.Tactic
import OsLabs.Bytes
import OsLabs.BitmapModel
import OsLabs.Wlp
import OsLabs.FsModel
import OsLabs.DirModel
import OsLabs.FsVolume
import OsLabs.FsAccounts
import OsLabs.Dirents
import OsLabs.DirMap
import OsLabs.FsCreation
import OsLabs.FsTree
import OsLabs.FsCommands
import OsLabs.FsImage
import OsLabs.FsSessions
import OsLabs.DirectoryMaps
import OsLabs.DirectoryTree

/-!
# Commands that fail

A command that returns a negative number has left the file system as it was, wherever it failed:
what it had allocated before is freed again, and the entries that it had written are gone.
-/

namespace OsLabs
namespace FailingCommands

open Bytes BitmapModel FsModel DirModel FsVolume FsAccounts Dirents DirMap FsCreation FsTree
open FsCommands FsImage FsSessions DirectoryMaps DirectoryTree

/-- The same tree, inodes, contents, free maps, counters and current directory. -/
structure Unchanged (s t : Testfs) : Prop where
  tree : ∃ E, IsDirectoryTree s E ∧ IsDirectoryTree t E
  inode : ∀ i, inodeView t i = inodeView s i
  ref : ∀ i l, ref (volume t) i l = ref (volume s) i l
  contents : ∀ i o, contents (volume t) i o = contents (volume s) i o
  inodeFreemap : ∀ k < 2^16, bitmapIsset t.inodeFreemap k = bitmapIsset s.inodeFreemap k
  blockFreemap : ∀ k < 2^20, bitmapIsset t.blockFreemap k = bitmapIsset s.blockFreemap k
  usedInodeCount : t.sb.usedInodeCount = s.sb.usedInodeCount
  usedBlockCount : t.sb.usedBlockCount = s.sb.usedBlockCount
  curDir : t.curDir = s.curDir

theorem unchanged_of_same {s t : Testfs} {c c' : Memory} {E : ℕ → List Entry}
    (h : Ready s c (volume s) E) (ht : Ready t c' (volume t) E)
    (hs : Same (volume s) (volume t)) (hc : c'.curDir = c.curDir) : Unchanged s t := by
  have h₁ := h.valid.stands.coherent
  have h₂ := ht.valid.stands.coherent
  refine ⟨⟨E,isDirectoryTree_of_ready h,isDirectoryTree_of_ready ht⟩,congrFun hs.inode,
    fun i => congrFun (congrFun hs.ref i),?_,?_,?_,hs.usedInodes,hs.usedBlocks,?_⟩
  · intro i o
    rw [Dirents.contents,Dirents.contents,hs.logical]
  · rw [← h₁.inodeBits]
    exact fun k => isset_of_bits (h₂.inodeBits.trans h₁.inodeBits.symm) hs.inodeUsed
  · rw [← h₁.blockBits]
    exact fun k => isset_of_bits (h₂.blockBits.trans h₁.blockBits.symm) hs.blockUsed
  · rw [ht.curDir_eq,hc,h.curDir_eq]

/-- A command that fails leaves the file system unchanged. -/
theorem failing_command_unchanged {s t : Testfs} (h : FsReachable s) {cmd : Command}
    {args : List CString} {r : Reply} (hr : (cmd.func args).run s = some (r,t)) (hneg : r.1 < 0) :
    Unchanged s t := by
  obtain ⟨c,E,hs⟩ := ready_of_reachable h
  obtain ⟨c',w,E',ht,hfail⟩ := func_spec hs cmd args r t hr
  obtain ⟨hsame,hcur,rfl⟩ := hfail hneg
  obtain rfl := ht.valid.stands.volume_eq
  exact unchanged_of_same hs ht hsame hcur

theorem freshTestfs_mkdir_dot : ∃ r t, (Command.mkdir.func [dot]).run freshTestfs = some (r,t) ∧
    r.1 = Errno.exist.ret ∧ Unchanged freshTestfs t := by
  obtain ⟨c,E,hs⟩ := ready_of_reachable freshTestfs_reachable
  have hr : (Command.mkdir.func [dot]).run freshTestfs = some (fails .exist,freshTestfs) :=
    cmdCreateType_present hs .dir (hs.tree.dot_entry _ hs.curDir)
  have hneg : (fails .exist).1 < 0 := by decide
  exact ⟨fails .exist,freshTestfs,hr,rfl,
    failing_command_unchanged freshTestfs_reachable hr hneg⟩

end FailingCommands
end OsLabs

import Mathlib.Data.Finset.Card
import Mathlib.Tactic
import OsLabs.Holdings
import OsLabs.BitmapModel
import OsLabs.FsModel
import OsLabs.FsVolume
import OsLabs.FsAccounts
import OsLabs.DirOps
import OsLabs.FsCreation
import OsLabs.FsTree
import OsLabs.FsCommands
import OsLabs.FsSessions
import OsLabs.DirReplies

/-!
# Accounts of the data blocks

In every state between two commands the block free map marks exactly the blocks that the inodes in
use refer to, each of them from one slot, and the counters of the super block and of the inodes
are the numbers of these blocks.
-/

namespace OsLabs
namespace BlockAccounting

open BitmapModel FsModel FsVolume FsAccounts DirOps FsCreation FsTree FsCommands FsSessions DirReplies
open Holdings

structure BlocksAccounted (s : Testfs) : Prop where
  start : s.sb.dataBlocksStart.toNat = dataStart
  marked : ∀ k < nrBlocks, bitmapIsset s.blockFreemap k = true ↔
    ∃ i l, Marked (volume s) i ∧ ref (volume s) i l = dataStart + k
  once : ∀ i l j l', ref (volume s) i l ≠ 0 → ref (volume s) i l = ref (volume s) j l' →
    i = j ∧ l = l'
  range : ∀ i l, ref (volume s) i l ≠ 0 →
    dataStart ≤ ref (volume s) i l ∧ ref (volume s) i l < dataStart + nrBlocks
  used : s.sb.usedBlockCount.toNat =
    ((Finset.range nrBlocks).filter fun k => bitmapIsset s.blockFreemap k = true).card
  bound : s.sb.usedBlockCount.toNat ≤ s.sb.maxFsBlocks.toNat
  count : ∀ i, ((volume s).inode i).blockCount.toNat =
    (Finset.univ.filter fun l => ref (volume s) i l ≠ 0).card

theorem blockUsed_eq_isset {s : Testfs} (hs : Coherent s) {k : ℕ} (hk : k < nrBlocks) :
    (volume s).blockUsed k = bitmapIsset s.blockFreemap k := by
  have hlt : k < s.blockFreemap.nbits := by
    rw [hs.blockBits]
    exact hk
  exact bits_of_lt hlt

/-- The blocks are accounted for between any two commands. -/
theorem blocks_accounted {s : Testfs} (h : FsReachable s) : BlocksAccounted s := by
  obtain ⟨c,E,hr⟩ := ready_of_reachable h
  have ha := hr.valid.accounts
  have hc := hr.valid.stands.coherent
  have hmarked : ∀ i l, ref (volume s) i l ≠ 0 → Marked (volume s) i := by
    intro i l h0
    by_contra hi
    exact h0 (ref_zero (hr.tree.unmarked i hi) l)
  refine ⟨by rw [hc.dataBlocksStart]; rfl,?_,ha.balanced.unique,fun i l h0 => ha.range h0,?_,
    ha.bound,ha.count⟩
  · intro k hk
    have hcovered := ha.balanced.covered (dataStart + k)
    rw [Used,Nat.add_sub_cancel_left,blockUsed_eq_isset hc hk] at hcovered
    constructor
    · intro hset
      obtain ⟨h0,i,l,hl⟩ := hcovered.mp ⟨by omega,by omega,hset⟩
      exact ⟨i,l,hmarked i l (by rw [hl]; exact h0),hl⟩
    · rintro ⟨i,l,-,hl⟩
      exact (hcovered.mpr ⟨by simp,i,l,hl⟩).2.2
  · refine ha.used.trans ?_
    rw [held]
    refine congrArg Finset.card (Finset.filter_congr fun k hk => ?_)
    rw [blockUsed_eq_isset hc (Finset.mem_range.mp hk),Bool.ne_false_iff]

theorem usedTestfs_accounted : BlocksAccounted usedTestfs :=
  blocks_accounted usedTestfs_reachable

end BlockAccounting
end OsLabs

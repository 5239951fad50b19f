import Mathlib.Data.BitVec
import Mathlib.Tactic
import OsLabs.Bytes
import OsLabs.Wlp
import OsLabs.Transition
import OsLabs.FsModel
import OsLabs.DirModel
import OsLabs.FsVolume
import OsLabs.FsAccounts
import OsLabs.Dirents
import OsLabs.DirMap
import OsLabs.DirOps
import OsLabs.FsCreation
import OsLabs.RootedTree
import OsLabs.FsTree
import OsLabs.FsCommands
import OsLabs.FsReading
import OsLabs.FsWriting
import OsLabs.FsImage
import OsLabs.FsMaking
import OsLabs.FsWalks

/-!
# Sessions

A file system starts as an image of `mktestfs` that is mounted. Then `testfs` executes commands,
and it may quit and be started again on the image that it left. Every state that is reached
between two commands is ready.
-/

namespace OsLabs
namespace FsSessions

open Bytes FsModel DirModel FsVolume FsAccounts Dirents DirMap DirOps FsCreation
open RootedTree FsTree FsCommands FsReading FsImage FsMaking FsWalks Transition

/-- The end of `main` in `testfs.c`, after the last command. -/
def quitWith {m : Type → Type} [Monad m] [MonadLiftT FsM m] (put : ℕ → m Unit) : m Unit := do
  let s ← (get : FsM Testfs)
  put s.curDir
  testfsCloseSuperBlock

abbrev quit : FsM Unit := quitWith testfsPutInode

inductive Action
  | command (cmd : Command) (args : List CString)
  | restart
  deriving DecidableEq

/-- One command that returns, or the end of the program and its next start. -/
def fsStep (s : Testfs) : Action → Option Testfs
  | .command cmd args => handleCommand s (cmd,args)
  | .restart => (quit.run s).bind fun p => mount p.2.dev

/-- The states between two commands, on a new image of any size. -/
def FsReachable (s : Testfs) : Prop :=
  ∃ n dev s₀, mktestfs n = some dev ∧ mount dev = some s₀ ∧ Reachable s₀ fsStep (fun _ _ => True) s

/-- The states of the runs whose every step is allowed. -/
def FsRun (ok : Testfs → Action → Prop) (s : Testfs) : Prop :=
  ∃ n dev s₀, mktestfs n = some dev ∧ mount dev = some s₀ ∧ Reachable s₀ fsStep ok s

section Runs

variable {s t : Testfs} {c : Memory} {v : Volume} {E : ℕ → List Entry}

theorem quit_valid (h : Ready s c v E) :
    Wlp quit s (fun _ t => ∃ c', Valid t c' v) := by
  rw [quit,quitWith,Wlp.bind_iff,Wlp.liftM_iff,Wlp.get_iff,Wlp.bind_iff]
  refine (testfsPutInode_valid h.valid s.curDir).mono fun _ t ht => ?_
  exact (testfsCloseSuperBlock_valid ht).mono fun _ u hu => ⟨_,hu⟩

/-- The program starts again on the image that it left. -/
theorem restart_ready (h : Ready s c v E) (hs : fsStep s .restart = some t) :
    ∃ dev, Ready t ((fresh dev).hold 0) v E := by
  obtain ⟨⟨r,u⟩,hr,hmount⟩ := Option.bind_eq_some_iff.mp hs
  obtain ⟨c',hu⟩ := quit_valid h r u hr
  obtain ⟨t',ht,hready⟩ := mount_ready (valid_loaded hu h.synced) h.tree h.synced
  obtain rfl : t' = t := Option.some.inj (ht.symm.trans hmount)
  exact ⟨_,hready⟩

/-- A command has its effect on the state between commands. -/
theorem command_effect (h : Ready s c v E) {cmd : Command} {args : List CString}
    (hs : fsStep s (.command cmd args) = some t) : ∃ r, Effect c v E cmd args r t := by
  obtain ⟨⟨r,u⟩,hr,rfl⟩ := Option.map_eq_some_iff.mp hs
  exact ⟨r.1,func_effect h cmd args r u hr⟩

/-- One step leads from a state that is ready to one that is ready. -/
theorem ready_step (h : Ready s c v E) (a : Action) (hs : fsStep s a = some t) :
    ∃ c' w E', Ready t c' w E' := by
  cases a with
  | command cmd args =>
    obtain ⟨r,heff⟩ := command_effect h hs
    obtain ⟨c',w,E',hw,-⟩ := heff.outcome
    exact ⟨c',w,E',hw⟩
  | restart =>
    obtain ⟨dev,hw⟩ := restart_ready h hs
    exact ⟨_,v,E,hw⟩

/-- The rule for runs: a property of the freshly mounted file systems that the allowed steps
keep. -/
theorem FsRun.invariant {ok : Testfs → Action → Prop} {P : Testfs → Prop}
    (hinit : ∀ dev v E s, Ready s ((fresh dev).hold 0) v E → P s)
    (hstep : ∀ s a t, P s → ok s a → fsStep s a = some t → P t) (h : FsRun ok s) : P s := by
  obtain ⟨n,dev,s₀,hmake,hmount,hreach⟩ := h
  have hn : 1 ≤ n ∧ n ≤ 8192 := by
    by_contra hbad
    rw [mktestfs,if_pos (by omega)] at hmake
    cases hmake
  obtain ⟨dev',v,hdev,hvalid,htree,hsync,-⟩ := mktestfs_total hn.1 hn.2
  obtain rfl : dev' = dev := Option.some.inj (hdev.symm.trans hmake)
  obtain ⟨s',hs',hready⟩ := mount_ready hvalid htree hsync
  obtain rfl : s' = s₀ := Option.some.inj (hs'.symm.trans hmount)
  exact hreach.invariant (hinit _ _ _ _ hready) hstep

theorem step_of_run {cmd : Command} {args : List CString} {r : Reply}
    (h : (cmd.func args).run s = some (r,t)) : fsStep s (.command cmd args) = some t :=
  Option.map_eq_some_iff.mpr ⟨(r,t),h,rfl⟩

theorem FsRun.step {ok : Testfs → Action → Prop} {a : Action} (h : FsRun ok s) (hok : ok s a)
    (hs : fsStep s a = some t) : FsRun ok t := by
  obtain ⟨n,dev,s₀,hmake,hmount,hreach⟩ := h
  exact ⟨n,dev,s₀,hmake,hmount,.step a hreach hok hs⟩

theorem ready_of_reachable (h : FsReachable s) : ∃ c E, Ready s c (volume s) E := by
  have hrun : FsRun (fun _ _ => True) s := h
  obtain ⟨c,w,E,hw⟩ := hrun.invariant (P := fun s => ∃ c v E, Ready s c v E)
    (fun dev v E s hs => ⟨_,v,E,hs⟩) fun s a t ⟨c,w,E,hs⟩ _ hstep => ready_step hs a hstep
  obtain rfl := hw.valid.stands.volume_eq
  exact ⟨c,E,hw⟩

end Runs

/-! ## A new file system -/

theorem mktestfs_mount_isSome {n : ℕ} (h1 : 1 ≤ n) (h2 : n ≤ 8192) :
    ((mktestfs n).bind mount).isSome = true := by
  obtain ⟨dev,v,hdev,hvalid,htree,hsync,-⟩ := mktestfs_total h1 h2
  obtain ⟨s,hs,-⟩ := mount_ready hvalid htree hsync
  rw [hdev,Option.bind_some,hs]
  rfl

/-- The smallest file system, of one megabyte. -/
def freshTestfs : Testfs :=
  ((mktestfs 1).bind mount).get (mktestfs_mount_isSome le_rfl (by norm_num))

theorem freshTestfs_made : ∃ dev, mktestfs 1 = some dev ∧ mount dev = some freshTestfs := by
  have hs := Option.some_get (mktestfs_mount_isSome le_rfl (by norm_num : 1 ≤ 8192))
  exact Option.bind_eq_some_iff.mp hs.symm

theorem freshTestfs_run (ok : Testfs → Action → Prop) : FsRun ok freshTestfs := by
  obtain ⟨dev,hdev,hmount⟩ := freshTestfs_made
  exact ⟨1,dev,freshTestfs,hdev,hmount,.init⟩

theorem freshTestfs_reachable : FsReachable freshTestfs := freshTestfs_run _

theorem freshTestfs_ready : ∃ dev v, Ready freshTestfs ((fresh dev).hold 0) v rootEntries ∧
    NewCounts 128 v := by
  obtain ⟨dev,v,hdev,hvalid,htree,hsync,hcounts⟩ := mktestfs_total le_rfl (by norm_num : 1 ≤ 8192)
  obtain ⟨s,hmount,hready⟩ := mount_ready hvalid htree hsync
  have hs : (mktestfs 1).bind mount = some s := Option.bind_eq_some_iff.mpr ⟨dev,hdev,hmount⟩
  obtain rfl : freshTestfs = s := Option.some.inj ((Option.some_get _).trans hs)
  have hblocks : 1*2^20/blockSize = 128 := by
    simp only [blockSize]
    norm_num
  exact ⟨dev,v,hready,hblocks ▸ hcounts⟩

end FsSessions
end OsLabs

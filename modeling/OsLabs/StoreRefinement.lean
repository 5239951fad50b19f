import Mathlib.Data.BitVec
import Mathlib.Tactic
import OsLabs.Bytes
import OsLabs.Wlp
import OsLabs.FsModel
import OsLabs.DirModel
import OsLabs.FsVolume
import OsLabs.FsAccounts
import OsLabs.Dirents
import OsLabs.DirMap
import OsLabs.FsCreation
import OsLabs.RootedTree
import OsLabs.FileTrees
import OsLabs.FsTree
import OsLabs.FsCommands
import OsLabs.FsWalks
import OsLabs.FsImage
import OsLabs.FsMaking
import OsLabs.FsSessions
import OsLabs.FsGrowth
import OsLabs.DirReplies
import OsLabs.FileStore
import OsLabs.StorePictures
import OsLabs.StoreChanges

/-!
# The file system is a tree of files

Every command acts as one step of the store does, with the same reply, so that a session on a new
image, over any number of restarts, is a session of a store that starts empty.
-/

namespace OsLabs
namespace StoreRefinement

open Bytes FsModel DirModel FsVolume FsAccounts Dirents DirMap FsCreation
open RootedTree FileTrees FsTree FsCommands FsWalks FsImage FsMaking FsSessions
open FsGrowth DirReplies FileStore StorePictures StoreChanges

/-! ## Sessions -/

section Sessions

variable {s t : Testfs} {c : Memory} {v : Volume} {E : ℕ → List Entry} {S : Store}

theorem func_usage (cmd : Command) {args : List CString} (h : args.length ≠ arity cmd) :
    cmd.func args = pure (fails .inval) := by
  rcases args with _ | ⟨a,_ | ⟨b,_ | ⟨x,_ | ⟨y,l⟩⟩⟩⟩ <;> cases cmd <;>
    first
    | rfl
    | exact absurd rfl h

/-- Every command acts as one step of the store does. -/
theorem func_simulates (h : Ready s c v E) (hp : Pictures v E c.curDir S) (cmd : Command)
    (args : List CString) : Wlp (cmd.func args) s fun r t => Simulates S cmd args r t := by
  by_cases harity : args.length = arity cmd
  · cases cmd with
    | pwd =>
      obtain rfl := List.eq_nil_of_length_eq_zero harity
      exact cmdPwd_simulates h hp
    | fsstat =>
      obtain rfl := List.eq_nil_of_length_eq_zero harity
      exact cmdFsstat_simulates h hp
    | read =>
      obtain ⟨name,offset,size,rfl⟩ := List.length_eq_three.mp harity
      exact cmdRead_simulates h hp name offset size
    | write =>
      obtain ⟨name,offset,buf,rfl⟩ := List.length_eq_three.mp harity
      exact cmdWrite_simulates h hp name offset buf
    | cd =>
      obtain ⟨name,rfl⟩ := List.length_eq_one_iff.mp harity
      exact cmdCd_simulates h hp name
    | ls =>
      obtain ⟨name,rfl⟩ := List.length_eq_one_iff.mp harity
      exact cmdLs_simulates h hp name
    | lsr =>
      obtain ⟨name,rfl⟩ := List.length_eq_one_iff.mp harity
      exact cmdLsr_simulates h hp name
    | stat =>
      obtain ⟨name,rfl⟩ := List.length_eq_one_iff.mp harity
      exact cmdStat_simulates h hp name
    | rm =>
      obtain ⟨name,rfl⟩ := List.length_eq_one_iff.mp harity
      exact cmdRm_simulates h hp name
    | create =>
      obtain ⟨name,rfl⟩ := List.length_eq_one_iff.mp harity
      exact cmdCreateType_simulates h hp (by decide) name fun hf => .create hf
    | mkdir =>
      obtain ⟨name,rfl⟩ := List.length_eq_one_iff.mp harity
      exact cmdCreateType_simulates h hp (by decide) name fun hf => .mkdir hf
  · rw [func_usage cmd harity]
    exact Wlp.pure_iff.mpr (hp.unchanged h (Same.refl v) rfl (.usage harity))

/-- The state is ready and has this store as its picture. -/
def Represents (s : Testfs) (S : Store) : Prop :=
  ∃ c E, Ready s c (volume s) E ∧ Pictures (volume s) E c.curDir S

theorem represents_of_pictures (h : Ready s c v E) (hp : Pictures v E c.curDir S) :
    Represents s S := by
  obtain rfl := h.valid.stands.volume_eq
  exact ⟨c,E,h,hp⟩

theorem Represents.command (h : Represents s S) {cmd : Command} {args : List CString} {r : Reply}
    (hr : (cmd.func args).run s = some (r,t)) : ∃ S', Step S cmd args r S' ∧ Represents t S' := by
  obtain ⟨c,E,hready,hp⟩ := h
  obtain ⟨c',w,E',S',ht,hp',hstep⟩ := func_simulates hready hp cmd args r t hr
  exact ⟨S',hstep,represents_of_pictures ht hp'⟩

theorem Represents.restart (h : Represents s S) (hr : fsStep s .restart = some t) :
    Represents t S.home := by
  obtain ⟨c,E,hready,hp⟩ := h
  obtain ⟨dev,ht⟩ := restart_ready hready hr
  exact represents_of_pictures ht ⟨hp.shows,.root⟩

end Sessions

end StoreRefinement
end OsLabs

import Mathlib.Data.BitVec
import Mathlib.Tactic
import OsLabs.Bytes
import OsLabs.RootedTree
import OsLabs.FileTrees
import OsLabs.FsModel
import OsLabs.DirModel
import OsLabs.FsAccounts
import OsLabs.FsSessions
import OsLabs.FsErrors
import OsLabs.BlockNarrowing

/-!
# What the file system is for

A `Store` is a tree of named files and the path of the current directory; there are no inodes,
blocks or free maps in it. `Step` says what each command answers and what it makes of the store.
The answers are determined by the store, except for the number of an inode and the counts of
blocks, and for a command that needs room: it may be refused, and then it changes nothing.
-/

namespace OsLabs
namespace FileStore

open Bytes FsModel DirModel FsAccounts FsSessions FsErrors BlockNarrowing FileTrees

/-! ## The data of a file -/

structure FileData where
  size : ℤ
  bytes : Region

def FileData.empty : FileData := ⟨0,fun _ => 0⟩

/-- Where an offset lies, whose block number has become an `int`. -/
def address (o : ℕ) : ℕ := (blockNr o).toNat*blockSize + o % blockSize

/-- The bytes from an offset on lie in one block that a file can have. -/
structure Accessible (o n : ℕ) : Prop where
  nonneg : 0 ≤ blockNr o
  lt : (blockNr o).toNat < nrLogical
  fit : o % blockSize + n ≤ blockSize

def FileData.write (f : FileData) (o : ℕ) (buf : List Byte) : FileData where
  size := if buf = [] then f.size else max f.size (o + buf.length : ℕ)
  bytes := copyIn f.bytes (address o) buf

/-! ## Stores -/

structure Store where
  tree : FileTree CString FileData
  cwd : List CString
  cwd_dir : tree.node cwd = some .directory

namespace Store

/-- A new file system. -/
def new : Store := ⟨.single,[],FileTree.root _⟩

/-- The path that a name stands for in the current directory. -/
def resolve (S : Store) (name : CString) : List CString :=
  if name = dot then S.cwd
  else if name = dotdot then S.cwd.dropLast
  else S.cwd ++ [name]

def find (S : Store) (name : CString) : Option (Node FileData) := S.tree.node (S.resolve name)

theorem resolve_of_ne (S : Store) {name : CString} (h1 : name ≠ dot) (h2 : name ≠ dotdot) :
    S.resolve name = S.cwd ++ [name] := by
  rw [resolve,if_neg h1,if_neg h2]

/-- "." and ".." are there in every directory. -/
theorem ne_dots_of_find (S : Store) {name : CString} (h : S.find name = none) :
    name ≠ dot ∧ name ≠ dotdot := by
  constructor
  · rintro rfl
    rw [find,resolve,if_pos rfl,S.cwd_dir] at h
    cases h
  · rintro rfl
    rw [find,resolve,if_neg (by decide),if_pos rfl,S.tree.node_dropLast S.cwd_dir] at h
    cases h

theorem node_of_find (S : Store) {name : CString} (h : S.find name = none) :
    S.tree.node (S.cwd ++ [name]) = none := by
  obtain ⟨h1,h2⟩ := S.ne_dots_of_find h
  rwa [find,S.resolve_of_ne h1 h2] at h

/-- Back in the root directory. -/
def home (S : Store) : Store := { S with cwd := [], cwd_dir := S.tree.root }

def goTo (S : Store) (name : CString) (h : S.find name = some .directory) : Store :=
  { S with cwd := S.resolve name, cwd_dir := h }

def make (S : Store) (name : CString) (x : Node FileData) (h : S.find name = none) : Store where
  tree := S.tree.make x S.cwd_dir (S.node_of_find h)
  cwd := S.cwd
  cwd_dir := (Function.update_of_ne (by simp) ..).trans S.cwd_dir

def remove (S : Store) (name : CString)
    (hleaf : ∀ m, S.tree.node (S.cwd ++ [name] ++ [m]) = none) : Store where
  tree := S.tree.remove hleaf
  cwd := S.cwd
  cwd_dir := (Function.update_of_ne (by simp) ..).trans S.cwd_dir

def put (S : Store) (name : CString) {f : FileData} (g : FileData)
    (h : S.find name = some (.file f)) : Store where
  tree := S.tree.put g h
  cwd := S.cwd
  cwd_dir := by
    refine (Function.update_of_ne ?_ ..).trans S.cwd_dir
    intro hc
    rw [find,← hc,S.cwd_dir] at h
    cases h

end Store

/-! ## Listings -/

/-- These are the names in the directory `p`, each of them once. -/
structure Complete (T : FileTree CString FileData) (p ns : List CString) : Prop where
  nodup : ns.Nodup
  mem : ∀ n, n ∈ ns ↔ n = dot ∨ n = dotdot ∨ T.node (p ++ [n]) ≠ none

/-- What is printed for these names of the directory `p`: each name with a mark if it is a
directory, and right after the name of a directory what is below it. -/
inductive Lists (T : FileTree CString FileData) (recursive : Bool) :
    List CString → List CString → List (CString × Bool) → Prop
  | nil {p : List CString} : Lists T recursive p [] []
  | dots {p ns : List CString} {n : CString} {l : List (CString × Bool)}
      (hn : n = dot ∨ n = dotdot) (hl : Lists T recursive p ns l) :
      Lists T recursive p (n::ns) ((n,true)::l)
  | plain {p ns : List CString} {n : CString} {l : List (CString × Bool)} {x : Node FileData}
      (hx : T.node (p ++ [n]) = some x) (hr : recursive = false ∨ x.isDirectory = false)
      (hl : Lists T recursive p ns l) : Lists T recursive p (n::ns) ((n,x.isDirectory)::l)
  | into {p ns ms : List CString} {n : CString} {l below : List (CString × Bool)}
      (hx : T.node (p ++ [n]) = some .directory) (hr : recursive = true)
      (hm : Complete T (p ++ [n]) ms) (hb : Lists T recursive (p ++ [n]) ms below)
      (hl : Lists T recursive p ns l) : Lists T recursive p (n::ns) ((n,true)::(below ++ l))

/-! ## Commands -/

/-- The number of arguments. -/
def arity : Command → ℕ
  | .pwd => 0
  | .fsstat => 0
  | .read => 3
  | .write => 3
  | _ => 1

/-- An offset in an argument. -/
def offsetOf (str : CString) : Option ℕ :=
  match strToOffset str with
  | none => none
  | some o => if o < 0 then none else some o.toNat

/-- The type and the size that `stat` prints. -/
def Describes (x : Node FileData) (iType : BitVec 32) (iSize : BitVec 64) : Prop :=
  match x with
  | .directory => iType = InodeType.dir.code
  | .file f => iType ≠ InodeType.dir.code ∧ iSize.toInt = f.size

/-- The error for bytes that cannot be read: no buffer can have more than `2^63` of them. -/
def readError (n : ℕ) : Errno := if 2^63 ≤ toSize (n + 1) then .nomem else .nosys

/-- A command with its arguments, its reply, and the store after it. The store does not know when
the image is full: then a new name finds no room, and a write that needs a block is refused. -/
inductive Step (S : Store) : Command → List CString → Reply → Store → Prop
  | usage {cmd : Command} {args : List CString} (h : args.length ≠ arity cmd) :
      Step S cmd args (fails .inval) S
  | missing {cmd : Command} {name : CString} (hcmd : cmd ∈ [.cd,.ls,.lsr,.stat])
      (h : S.find name = none) : Step S cmd [name] (fails .noent) S
  | notDirectory {cmd : Command} {name : CString} {f : FileData} (hcmd : cmd ∈ [.cd,.ls,.lsr])
      (h : S.find name = some (.file f)) : Step S cmd [name] (fails .notdir) S
  | cd {name : CString} (h : S.find name = some .directory) :
      Step S .cd [name] (0,.nothing) (S.goTo name h)
  | pwd : Step S .pwd [] (0,.path S.cwd) S
  | ls {name : CString} {ns : List CString} {l : List (CString × Bool)}
      (h : S.find name = some .directory) (hn : Complete S.tree (S.resolve name) ns)
      (hl : Lists S.tree false (S.resolve name) ns l) : Step S .ls [name] (0,.names l) S
  | lsr {name : CString} {ns : List CString} {l : List (CString × Bool)}
      (h : S.find name = some .directory) (hn : Complete S.tree (S.resolve name) ns)
      (hl : Lists S.tree true (S.resolve name) ns l) : Step S .lsr [name] (0,.names l) S
  | stat {name : CString} {x : Node FileData} {iNr : ℕ} {iType blockCount : BitVec 32}
      {iSize : BitVec 64} (h : S.find name = some x) (hx : Describes x iType iSize) :
      Step S .stat [name] (0,.stat name iNr iType iSize blockCount) S
  | present {cmd : Command} {name : CString} {x : Node FileData} (hcmd : cmd ∈ [.create,.mkdir])
      (h : S.find name = some x) : Step S cmd [name] (fails .exist) S
  | noRoom {cmd : Command} {name : CString} {e : Errno} (hcmd : cmd ∈ [.create,.mkdir])
      (h : S.find name = none) (he : NoRoom name e) : Step S cmd [name] (fails e) S
  | create {name : CString} (h : S.find name = none) :
      Step S .create [name] (0,.nothing) (S.make name (.file .empty) h)
  | mkdir {name : CString} (h : S.find name = none) :
      Step S .mkdir [name] (0,.nothing) (S.make name .directory h)
  | rmDots {name : CString} (h : name = dot ∨ name = dotdot) : Step S .rm [name] (fails .inval) S
  | rmMissing {name : CString} (h : S.find name = none) : Step S .rm [name] (fails .noent) S
  | rmFull {name m : CString} (h1 : name ≠ dot) (h2 : name ≠ dotdot)
      (h : S.tree.node (S.cwd ++ [name] ++ [m]) ≠ none) : Step S .rm [name] (fails .notempty) S
  | rm {name : CString} (h1 : name ≠ dot) (h2 : name ≠ dotdot) (h : S.find name ≠ none)
      (hleaf : ∀ m, S.tree.node (S.cwd ++ [name] ++ [m]) = none) :
      Step S .rm [name] (0,.nothing) (S.remove name hleaf)
  | readNumber {name offset size : CString} (h : offsetOf offset = none ∨ strToSize size = none) :
      Step S .read [name,offset,size] (fails .inval) S
  | readMissing {name offset size : CString} {o n : ℕ} (ho : offsetOf offset = some o)
      (hn : strToSize size = some n) (h : S.find name = none) :
      Step S .read [name,offset,size] (fails .noent) S
  | readDirectory {name offset size : CString} {o n : ℕ} (ho : offsetOf offset = some o)
      (hn : strToSize size = some n) (h : S.find name = some .directory) :
      Step S .read [name,offset,size] (fails .isdir) S
  | readBeyond {name offset size : CString} {o n : ℕ} {f : FileData}
      (ho : offsetOf offset = some o) (hn : strToSize size = some n)
      (h : S.find name = some (.file f)) (hf : f.size < toInt64 (o + toInt64 n)) :
      Step S .read [name,offset,size] (fails .inval) S
  | readRefused {name offset size : CString} {o n : ℕ} {f : FileData}
      (ho : offsetOf offset = some o) (hn : strToSize size = some n)
      (h : S.find name = some (.file f)) (hf : toInt64 (o + toInt64 n) ≤ f.size)
      (hno : ¬Accessible o n) : Step S .read [name,offset,size] (fails (readError n)) S
  | read {name offset size : CString} {o n : ℕ} {f : FileData}
      (ho : offsetOf offset = some o) (hn : strToSize size = some n)
      (h : S.find name = some (.file f)) (hf : toInt64 (o + toInt64 n) ≤ f.size)
      (hin : Accessible o n) :
      Step S .read [name,offset,size] (n,.data (copyOut f.bytes (address o) n)) S
  | writeNumber {name offset buf : CString} (h : offsetOf offset = none) :
      Step S .write [name,offset,buf] (fails .inval) S
  | writeMissing {name offset buf : CString} {o : ℕ} (ho : offsetOf offset = some o)
      (h : S.find name = none) : Step S .write [name,offset,buf] (fails .noent) S
  | writeDirectory {name offset buf : CString} {o : ℕ} (ho : offsetOf offset = some o)
      (h : S.find name = some .directory) : Step S .write [name,offset,buf] (fails .isdir) S
  | writeRefused {name offset buf : CString} {o : ℕ} {f : FileData}
      (ho : offsetOf offset = some o) (h : S.find name = some (.file f))
      (hno : ¬Accessible o buf.1.length) : Step S .write [name,offset,buf] (fails .nosys) S
  | writeFull {name offset buf : CString} {o : ℕ} {f : FileData} (ho : offsetOf offset = some o)
      (h : S.find name = some (.file f)) (hlt : (blockNr o).toNat < nrLogical) :
      Step S .write [name,offset,buf] (fails .nospc) S
  | write {name offset buf : CString} {o : ℕ} {f : FileData} (ho : offsetOf offset = some o)
      (h : S.find name = some (.file f)) (hin : Accessible o buf.1.length) :
      Step S .write [name,offset,buf] (buf.1.length,.nothing) (S.put name (f.write o buf.1) h)
  | fsstat {inodes blocks : BitVec 32} (h : inodes.toNat = S.tree.size) :
      Step S .fsstat [] (0,.counts inodes blocks) S

/-- What is done and what is printed: a command with its reply, or the end of the program and its
next start. -/
abbrev Observation : Type := Action × Option Reply

/-- A store after these observations. -/
inductive Session (S : Store) : List Observation → Store → Prop
  | nil : Session S [] S
  | command {T U : Store} {obs : List Observation} {cmd : Command} {args : List CString} {r : Reply}
      (h : Session S obs T) (hs : Step T cmd args r U) :
      Session S (obs ++ [(.command cmd args,some r)]) U
  | restart {T : Store} {obs : List Observation} (h : Session S obs T) :
      Session S (obs ++ [(.restart,none)]) T.home

end FileStore
end OsLabs

import OsLabs.StringTokens
import OsLabs.FsSessions

/-!
# The command lines of testfs

The loop of `main` in `fs/testfs.c`, which reads lines, and `handle_command` and
`parse_command`, which cut them into arguments with `strtok_r`. Some lines make them call it
with no string and nothing saved, which C leaves undefined; `nullTokens` says whether the
library answers such a call by `NULL`, and without it the call leaves the model. A text
that is printed from commands is executed as these commands.
-/

namespace OsLabs
namespace CommandLine

open Bytes FsModel DirModel FsSessions StringTokens Transition

def ascii (s : String) : List Byte := s.toList.map fun c => BitVec.ofNat 8 c.toNat

def newline : Byte := 10

def blank : Byte := 32

/-- `" \t\r\n"` -/
def isBlank (b : Byte) : Bool := b == 32 || b == 9 || b == 13 || b == 10

/-- `"\r\n"` -/
def isLineEnd (b : Byte) : Bool := b == 13 || b == 10

/-! ### `struct context` -/

/-- `MAX_ARGS` -/
def maxArgsLimit : ℕ := 6

/-- `cmd` is read and written at indices up to `MAX_ARGS`. -/
structure Context where
  nargs : ℕ
  cmd : ℕ → Option (List Byte)

/-- An assignment behind the array leaves the model. -/
def Context.setCmd (j : ℕ) (word : Option (List Byte)) (c : Context) : Option Context :=
  if j ≤ maxArgsLimit then some { c with cmd := Function.update c.cmd j word } else none

/-- `c->cmd[j] = NULL` up to `MAX_ARGS` -/
def Context.clearFrom (j : ℕ) (c : Context) : Context :=
  { c with cmd := fun k => if j ≤ k ∧ k ≤ maxArgsLimit then none else c.cmd k }

/-- The string that a pointer to characters points to. -/
def cstring (l : List Byte) : CString :=
  ⟨l.takeWhile (· != 0),fun h => by simpa using List.mem_takeWhile_imp h⟩

/-- What a command reads of the context: `cmd[1]` to `cmd[nargs-1]`. -/
def Context.args (c : Context) : List CString :=
  (List.range (c.nargs-1)).filterMap fun k => (c.cmd (k+1)).map cstring

/-! ### `parse_command` -/

/-- `strtok_r(s, delim, &save)` -/
def strtokR (nullTokens : Bool) (delim : Byte → Bool) (s save : Option (List Byte)) :
    Option (Option (List Byte) × Option (List Byte)) :=
  match s.or save with
  | some str => some ((strtok delim str).1,some (strtok delim str).2)
  | none => if nullTokens then some (none,none) else none

/-- The `while` loop of `parse_command`, for at most `n` more arguments. -/
def parseLoop (nullTokens : Bool) : ℕ → ℕ → Option (List Byte) → Option (List Byte) → Context →
    Option (ℕ × Option (List Byte) × Option (List Byte) × Context)
  | 0, j, args, save, c => some (j,args,save,c)
  | n+1, j, args, save, c => do
    let (token,save) ← strtokR nullTokens isBlank args save
    let c ← c.setCmd j token
    match token with
    | none => return (j,args,save,c)
    | some _ => parseLoop nullTokens n (j+1) none save c

/-- `j` is incremented behind the last argument, and once more when `nargs` is set. -/
def parseCommand (nullTokens : Bool) (maxArgs : ℕ) (name : List Byte) (args : Option (List Byte))
    (c : Context) : Option Context := do
  let c ← c.setCmd 0 (some name)
  let (j,args,save,c) ← parseLoop nullTokens (maxArgs-1) 1 args none c
  let (token,_) ← strtokR nullTokens isLineEnd args save
  let c ← c.setCmd j token
  let j := if token.isSome then j+1 else j
  return ({ c with nargs := j }).clearFrom (j+1)

/-! ### `cmdtable` -/

inductive Func
  | help | quit | fs (cmd : Command)
  deriving DecidableEq

structure Cmd where
  name : List Byte
  func : Func
  maxArgs : ℕ

def cmdName : Command → List Byte
  | .cd => ascii "cd"
  | .pwd => ascii "pwd"
  | .ls => ascii "ls"
  | .lsr => ascii "lsr"
  | .create => ascii "create"
  | .stat => ascii "stat"
  | .rm => ascii "rm"
  | .mkdir => ascii "mkdir"
  | .read => ascii "read"
  | .write => ascii "write"
  | .fsstat => ascii "fsstat"

def cmdMaxArgs : Command → ℕ
  | .pwd => 1
  | .fsstat => 1
  | .read => 4
  | .write => 4
  | _ => 2

def fsCmd (cmd : Command) : Cmd := ⟨cmdName cmd,.fs cmd,cmdMaxArgs cmd⟩

def cmdtable : List Cmd :=
  [⟨ascii "help",.help,1⟩,fsCmd .cd,fsCmd .pwd,fsCmd .ls,fsCmd .lsr,fsCmd .create,fsCmd .stat,
    fsCmd .rm,fsCmd .mkdir,fsCmd .read,fsCmd .write,fsCmd .fsstat,⟨ascii "quit",.quit,1⟩]

/-! ### `main` -/

/-- What a line makes the program print. A reply below zero is printed as an error, with the usage of
the command. -/
inductive Printed
  | commands
  | bye
  | reply (cmd : Command) (args : List CString) (r : Reply)
  | notFound (name : List Byte)
  deriving DecidableEq

structure Shell where
  context : Context
  fs : Testfs
  printed : List Printed
  canQuit : Bool

/-- The function of an entry of the table, on the parsed context. -/
def Func.run (func : Func) (m : Shell) : Option Shell :=
  match func with
  | .help => some { m with printed := m.printed ++ [.commands] }
  | .quit => some { m with printed := m.printed ++ [.bye], canQuit := true }
  | .fs cmd => ((cmd.func m.context.args).run m.fs).map fun p =>
      { m with fs := p.2, printed := m.printed ++ [.reply cmd m.context.args p.1] }

/-- A name that is not in the table is reported. -/
def handleCommand (nullTokens : Bool) (name : List Byte) (args : Option (List Byte)) (m : Shell) :
    Option Shell :=
  match cmdtable.find? (fun e => e.name == name) with
  | none => some { m with printed := m.printed ++ [.notFound name] }
  | some e => do
    let c ← parseCommand nullTokens e.maxArgs name args m.context
    e.func.run { m with context := c }

/-- One round of the loop, with the line that `getline` has read. -/
def runLine (nullTokens : Bool) (line : List Byte) (m : Shell) : Option Shell :=
  if line.head? = some 35 then some m
  else
    let (cname,save) := strtok isBlank (cstring line).1
    let (pargs,_) := strtok isLineEnd save
    match cname with
    | none => some m
    | some name => handleCommand nullTokens name pargs m

/-- What `getline` reads, line by line. -/
def getlines : List Byte → List (List Byte)
  | [] => []
  | b::text =>
    if b = newline then [b]::getlines text
    else match getlines text with
      | [] => [[b]]
      | l::ls => (b::l)::ls

/-- The loop of `main` over the lines, up to the end of the input or to `quit`. -/
def mainLoop (nullTokens : Bool) : List (List Byte) → Shell → Option Shell
  | [], m => some m
  | line::lines, m => do
    let m ← runLine nullTokens line m
    if m.canQuit then return m else mainLoop nullTokens lines m

/-! ## Parsing any line -/

/-- The first entries of `cmd`. -/
def Filled (c : Context) (l : List (List Byte)) : Prop := ∀ k w, l[k]? = some w → c.cmd k = some w

section parse

variable {nullTokens : Bool} {c c' : Context} {l : List (List Byte)} {args save : Option (List Byte)}

theorem setCmd_eq {j : ℕ} (hj : j ≤ maxArgsLimit) (word : Option (List Byte)) (c : Context) :
    c.setCmd j word = some { c with cmd := Function.update c.cmd j word } := if_pos hj

theorem Filled.push (h : Filled c l) (w : List Byte) :
    Filled { c with cmd := Function.update c.cmd l.length (some w) } (l ++ [w]) := by
  intro k v hk
  by_cases hl : k = l.length
  · subst hl
    simpa using hk
  · have hlt : k < l.length := by
      have := (List.getElem?_eq_some_iff.mp hk).1
      simp only [List.length_append,List.length_singleton] at this
      omega
    rw [List.getElem?_append_left hlt] at hk
    simpa [Function.update_of_ne hl] using h k v hk

theorem Filled.set (h : Filled c l) {j : ℕ} (hj : l.length ≤ j) (word : Option (List Byte)) :
    Filled { c with cmd := Function.update c.cmd j word } l := by
  intro k w hk
  have hlt := (List.getElem?_eq_some_iff.mp hk).1
  have hne : k ≠ j := by omega
  simpa [Function.update_of_ne hne] using h k w hk

theorem Filled.clearFrom (h : Filled c l) {j n : ℕ} (hj : l.length ≤ j) :
    Filled (({ c with nargs := n }).clearFrom j) l := by
  intro k w hk
  have hlt := (List.getElem?_eq_some_iff.mp hk).1
  have hn : ¬ (j ≤ k ∧ k ≤ maxArgsLimit) := by omega
  simpa [Context.clearFrom,hn] using h k w hk

theorem filled_name (name : List Byte) (c : Context) :
    Filled { c with cmd := Function.update c.cmd 0 (some name) } [name] :=
  Filled.push (l := []) (fun k w hk => by simp at hk) name

/-- There is a string to cut tokens from, or the library does without. -/
def Supplied (nullTokens : Bool) (args save : Option (List Byte)) : Prop :=
  nullTokens = true ∨ (args.or save).isSome = true

theorem strtokR_supplied (delim : Byte → Bool) (h : Supplied nullTokens args save) :
    ∃ token save', strtokR nullTokens delim args save = some (token,save') ∧
      Supplied nullTokens none save' ∧
      ∀ w, token = some w → w ≠ [] ∧ (∀ x ∈ w, delim x = false) := by
  cases hs : args.or save with
  | none =>
    have hn : nullTokens = true := h.resolve_right (by simp [hs])
    exact ⟨none,none,by simp [strtokR,hs,hn],.inl hn,fun _ hw => by cases hw⟩
  | some str =>
    have hr : strtokR nullTokens delim args save = some ((strtok delim str).1,some (strtok delim str).2) := by
      simp only [strtokR,hs]
    refine ⟨_,_,hr,.inr rfl,fun w hw => ?_⟩
    obtain ⟨hne,hd,-,-⟩ := strtok_some (Prod.ext hw rfl)
    exact ⟨hne,hd⟩

theorem not_lineEnd {x : Byte} (h : isBlank x = false) : isLineEnd x = false := by
  simp only [isBlank,Bool.or_eq_false_iff] at h
  simp only [isLineEnd,h.1.2,h.2,Bool.or_self]

/-- The loop stores words without blanks, one behind the other, and stays inside of `cmd`. -/
theorem parseLoop_spec (n : ℕ) (hf : Filled c l) (hlen : l.length+n ≤ maxArgsLimit)
    (hs : Supplied nullTokens args save) : ∃ ws args' save' c',
      parseLoop nullTokens n l.length args save c = some ((l ++ ws).length,args',save',c') ∧
      Filled c' (l ++ ws) ∧ ws.length ≤ n ∧ (∀ w ∈ ws, w ≠ [] ∧ ∀ x ∈ w, isBlank x = false) ∧
      Supplied nullTokens args' save' := by
  induction n generalizing c l args save with
  | zero => exact ⟨[],args,save,c,by simp [parseLoop],by simpa using hf,le_rfl,by simp,hs⟩
  | succ n ih =>
    obtain ⟨token,save',htok,hsup,hword⟩ := strtokR_supplied isBlank hs
    have hset := setCmd_eq (j := l.length) (by omega) token c
    cases token with
    | none =>
      have hsup' : Supplied nullTokens args save' := by
        rcases hsup with hn | hsome
        · exact .inl hn
        · cases args with
          | none => exact .inr hsome
          | some str => exact .inr rfl
      refine ⟨[],args,save',_,?_,by simpa using hf.set le_rfl none,Nat.zero_le _,by simp,hsup'⟩
      simp [parseLoop,htok,hset]
    | some w =>
      obtain ⟨hne,hd⟩ := hword w rfl
      have hlen' : (l ++ [w]).length+n ≤ maxArgsLimit := by simp; omega
      obtain ⟨ws,args',save'',c',hloop,hf',hle,hws,hsup'⟩ := ih (hf.push w) hlen' hsup
      refine ⟨w::ws,args',save'',c',?_,by simpa using hf',Nat.succ_le_succ hle,?_,hsup'⟩
      · simp only [parseLoop,htok,hset,Option.bind_eq_bind,Option.bind_some]
        simpa using hloop
      · exact List.forall_mem_cons.mpr ⟨⟨hne,hd⟩,hws⟩

/-- What `parse_command` leaves for a command with `maxArgs` arguments. -/
structure Parsed (maxArgs : ℕ) (name : List Byte) (c : Context) (ws : List (List Byte)) : Prop where
  nargs : c.nargs = ws.length+1
  bound : ws.length ≤ maxArgs
  name : c.cmd 0 = some name
  words : ∀ k w, ws[k]? = some w → c.cmd (k+1) = some w
  nonempty : ∀ w ∈ ws, w ≠ [] ∧ ∀ x ∈ w, isLineEnd x = false
  unbroken : ∀ w ∈ ws.dropLast, ∀ x ∈ w, isBlank x = false
  cleared : ∀ k, c.nargs < k → k ≤ maxArgsLimit → c.cmd k = none

/-- What the loop has found and what the last `strtok_r` finds. -/
theorem parsed_of_loop {maxArgs : ℕ} {name : List Byte} {ws : List (List Byte)}
    {args' save' save'' token : Option (List Byte)} {c₁ : Context} (hmax : maxArgs ≤ maxArgsLimit)
    (hpos : 1 ≤ maxArgs) (hf : Filled c₁ ([name] ++ ws)) (hle : ws.length ≤ maxArgs-1)
    (hloop : parseLoop nullTokens (maxArgs-1) 1 args none
      { c with cmd := Function.update c.cmd 0 (some name) } = some (([name] ++ ws).length,args',save',c₁))
    (hws : ∀ w ∈ ws, w ≠ [] ∧ ∀ x ∈ w, isBlank x = false)
    (htok : strtokR nullTokens isLineEnd args' save' = some (token,save''))
    (hword : ∀ w, token = some w → w ≠ [] ∧ ∀ x ∈ w, isLineEnd x = false) :
    ∃ c', parseCommand nullTokens maxArgs name args c = some c' ∧
      Parsed maxArgs name c' (ws ++ token.toList) := by
  have hset₀ := setCmd_eq (j := 0) (Nat.zero_le _) (some name) c
  have hlen : ([name] ++ ws).length = ws.length+1 := by simp
  have hset := setCmd_eq (j := ([name] ++ ws).length) (by omega) token c₁
  let c₂ : Context := { c₁ with cmd := Function.update c₁.cmd ([name] ++ ws).length token }
  let n := ([name] ++ ws ++ token.toList).length
  have hn : (if token.isSome then ([name] ++ ws).length+1 else ([name] ++ ws).length) = n := by
    cases token <;> simp [n]
  have hdone : parseCommand nullTokens maxArgs name args c =
      some (({ c₂ with nargs := n }).clearFrom (n+1)) := by
    simp only [parseCommand,hset₀,hloop,htok,hset,Option.bind_eq_bind,Option.bind_some,hn]
    rfl
  have hfill : Filled (({ c₂ with nargs := n }).clearFrom (n+1)) ([name] ++ ws ++ token.toList) := by
    refine Filled.clearFrom ?_ (Nat.le_succ _)
    cases token with
    | none =>
      rw [Option.toList_none,List.append_nil]
      exact hf.set le_rfl none
    | some w => exact hf.push w
  have htoken : token.toList.length ≤ 1 := by cases token <;> simp
  refine ⟨_,hdone,⟨?_,?_,hfill 0 name rfl,fun k w hk => hfill (k+1) w ?_,?_,?_,?_⟩⟩
  · change n = _
    simp only [n,List.length_append,List.length_singleton]
    omega
  · rw [List.length_append]
    omega
  · simpa using hk
  · intro w hw
    rcases List.mem_append.mp hw with hw | hw
    · exact ⟨(hws w hw).1,fun x hx => not_lineEnd ((hws w hw).2 x hx)⟩
    · exact hword w (Option.mem_toList.mp hw)
  · intro w hw
    refine (hws w ?_).2
    cases token with
    | none => exact List.dropLast_subset ws (by simpa using hw)
    | some v => simpa using hw
  · intro k hk hle
    exact if_pos ⟨hk,hle⟩

/-- With a table entry as its comment asks for, `parse_command` writes inside of `cmd`, whatever the
line, and finds at most `maxArgs` arguments, one more than the command takes. -/
theorem parseCommand_parsed {maxArgs : ℕ} (hmax : maxArgs ≤ maxArgsLimit) (hpos : 1 ≤ maxArgs)
    (name : List Byte) (hs : Supplied nullTokens args none) (c : Context) :
    ∃ c' ws, parseCommand nullTokens maxArgs name args c = some c' ∧ Parsed maxArgs name c' ws := by
  have hf := filled_name name c
  obtain ⟨ws,args',save,c₁,hloop,hf₁,hle,hws,hsup⟩ := parseLoop_spec (maxArgs-1) hf
    (by simp only [List.length_singleton]; omega) hs
  obtain ⟨token,save',htok,-,hword⟩ := strtokR_supplied isLineEnd hsup
  obtain ⟨c',hc',hp⟩ := parsed_of_loop hmax hpos hf₁ hle hloop hws htok hword
  exact ⟨c',_,hc',hp⟩

theorem parseCommand_none {maxArgs : ℕ} (name : List Byte) (c : Context) :
    parseCommand false maxArgs name none c = none := by
  have hset := setCmd_eq (j := 0) (Nat.zero_le _) (some name) c
  simp only [parseCommand,hset,Option.bind_eq_bind,Option.bind_some]
  cases maxArgs-1 <;> simp [parseLoop,strtokR]

def manyWords (n : ℕ) : List Byte := (List.replicate n [97,blank]).flatten

theorem strtok_manyWords (n : ℕ) : strtok isBlank (manyWords (n+1)) = (some [97],manyWords n) :=
  strtok_word (w := [97]) (by decide) (by simp) (by decide) (manyWords n)

theorem parseLoop_manyWords {n m j : ℕ} (hm : n ≤ m) (hs : args.or save = some (manyWords m))
    {r : ℕ × Option (List Byte) × Option (List Byte) × Context}
    (h : parseLoop nullTokens n j args save c = some r) : r.1 = j+n := by
  induction n generalizing m j args save c with
  | zero => cases h; rfl
  | succ n ih =>
    obtain ⟨m,rfl⟩ : ∃ k, m = k+1 := ⟨m-1,by omega⟩
    simp only [parseLoop,strtokR,hs,strtok_manyWords,Option.bind_eq_bind,Option.bind_some] at h
    obtain ⟨c',-,h⟩ := Option.bind_eq_some_iff.mp h
    have hj := ih (Nat.le_of_succ_le_succ hm) rfl h
    omega

/-- An entry of the table that takes more arguments than `cmd` has room for. -/
theorem parseCommand_outside {maxArgs : ℕ} (hmax : maxArgsLimit < maxArgs) (name : List Byte) (c : Context) :
    parseCommand nullTokens maxArgs name (some (manyWords maxArgs)) c = none := by
  rw [Option.eq_none_iff_forall_ne_some]
  intro c' h
  have hset₀ := setCmd_eq (j := 0) (Nat.zero_le _) (some name) c
  simp only [parseCommand,hset₀,Option.bind_eq_bind,Option.bind_some] at h
  obtain ⟨⟨j,args,save,c₁⟩,hloop,h⟩ := Option.bind_eq_some_iff.mp h
  obtain ⟨⟨token,save'⟩,-,h⟩ := Option.bind_eq_some_iff.mp h
  obtain ⟨c₂,hset,-⟩ := Option.bind_eq_some_iff.mp h
  have hj : j = 1+(maxArgs-1) := parseLoop_manyWords (m := maxArgs) (by omega) rfl hloop
  have hle : j ≤ maxArgsLimit := (Option.ite_none_right_eq_some.mp hset).1
  omega

end parse

theorem cmdtable_maxArgs : ∀ e ∈ cmdtable, 1 ≤ e.maxArgs ∧ e.maxArgs ≤ maxArgsLimit := by decide

/-- `MAX_ARGS >= max_args`, which the table promises, is exactly what keeps `parse_command` inside of
`cmd` for every line. Then it finds at most one argument too many, no empty one, blanks in the last one
only, and `NULL` behind them. A line without arguments is left to what the library makes of two null
pointers. -/
theorem parse_command_in_bounds {maxArgs : ℕ} (hpos : 1 ≤ maxArgs) (nullTokens : Bool) :
    (maxArgs ≤ maxArgsLimit ↔ ∀ name line c, ∃ c' ws,
      parseCommand nullTokens maxArgs name (some line) c = some c' ∧ Parsed maxArgs name c' ws) ∧
    (maxArgs ≤ maxArgsLimit → ∀ name c, (∃ c' ws,
      parseCommand nullTokens maxArgs name none c = some c' ∧ Parsed maxArgs name c' ws) ↔
        nullTokens = true) := by
  refine ⟨⟨fun hmax name line c => parseCommand_parsed hmax hpos name (.inr rfl) c,fun h => ?_⟩,
    fun hmax name c => ⟨fun h => ?_,fun hn => parseCommand_parsed hmax hpos name (.inl hn) c⟩⟩
  · by_contra hmax
    obtain ⟨c',ws,hparse,-⟩ := h [] (manyWords maxArgs) ⟨0,fun _ => none⟩
    rw [parseCommand_outside (not_le.mp hmax)] at hparse
    cases hparse
  · obtain ⟨c',ws,hparse,-⟩ := h
    cases hn : nullTokens with
    | true => rfl
    | false => rw [hn,parseCommand_none] at hparse; cases hparse

/-- The entry of `write` takes one argument too many. -/
theorem write_in_bounds : ∃ c' ws, parseCommand false (cmdMaxArgs .write) (ascii "write")
    (some (ascii "file -1 7 data")) ⟨0,fun _ => none⟩ = some c' ∧ Parsed 4 (ascii "write") c' ws :=
  (parse_command_in_bounds (show 1 ≤ cmdMaxArgs .write by decide) false).1.mp (by decide) _ _ _

end CommandLine
end OsLabs

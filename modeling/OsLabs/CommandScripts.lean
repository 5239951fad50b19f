import OsLabs.FsSessions
import OsLabs.FsGrowth
import OsLabs.DirReplies
import OsLabs.CommandLine

/-!
# Scripts of commands

The text of a script is what a user would type: each command with its arguments on a line
of its own, with comments between them. `testfs` cuts it into the same commands again and
executes them in order.
-/

namespace OsLabs
namespace CommandScripts

open Bytes FsModel DirModel FsSessions FsGrowth DirReplies StringTokens CommandLine Transition

/-! ### Printing -/

inductive Item
  | comment (text : List Byte)
  | command (cmd : Command) (args : List CString)

def printArgs (args : List CString) : List Byte := args.flatMap fun w => blank::w.1

/-- A line without the character that ends it. -/
def printItem : Item → List Byte
  | .comment text => 35::text
  | .command cmd args => cmdName cmd ++ printArgs args

def print (script : List Item) : List Byte := script.flatMap fun i => printItem i ++ [newline]

/-- What a script does. -/
def actions : List Item → List Action
  | [] => []
  | .comment _::script => actions script
  | .command cmd args::script => .command cmd args::actions script

/-- A step that keeps what the commands have answered. -/
def replyStep (m : Testfs × List Printed) : Action → Option (Testfs × List Printed)
  | .command cmd args => ((cmd.func args).run m.1).map fun p => (p.2,m.2 ++ [.reply cmd args p.1])
  | .restart => (fsStep m.1 .restart).map fun s => (s,m.2)

def Word (w : CString) : Prop := w.1 ≠ [] ∧ ∀ x ∈ w.1, isBlank x = false

/-- The arguments are words, at most one more than the command takes. -/
def Printable (nullTokens : Bool) : Item → Prop
  | .comment text => newline ∉ text
  | .command cmd args => (∀ w ∈ args, Word w) ∧ args.length ≤ cmdMaxArgs cmd ∧
      (args = [] → nullTokens = true)

variable {nullTokens : Bool} {args : List CString} {w : CString}

theorem printArgs_cons (w : CString) (args : List CString) :
    printArgs (w::args) = blank::(w.1 ++ printArgs args) := by
  simp [printArgs]

/-! ### Lines -/

theorem getlines_line {line : List Byte} (h : newline ∉ line) (text : List Byte) :
    getlines (line ++ newline::text) = (line ++ [newline])::getlines text := by
  induction line with
  | nil => simp [getlines]
  | cons b line ih =>
    rw [List.mem_cons,not_or] at h
    simp only [List.cons_append,getlines,Ne.symm h.1,if_false,ih h.2]

theorem newline_blank : isBlank newline = true := by decide

theorem mem_printArgs {x : Byte} (hx : x ∈ printArgs args) : x = blank ∨ ∃ w ∈ args, x ∈ w.1 := by
  obtain ⟨w,hw,hm⟩ := List.mem_flatMap.mp hx
  exact (List.mem_cons.mp hm).imp_right fun hm => ⟨w,hw,hm⟩

theorem cmdName_blankless (cmd : Command) : ∀ x ∈ cmdName cmd, isBlank x = false := by
  cases cmd <;> decide

theorem cmdName_ne_nil (cmd : Command) : cmdName cmd ≠ [] := by
  cases cmd <;> decide

theorem printArgs_lineless (h : ∀ w ∈ args, Word w) : ∀ x ∈ printArgs args, isLineEnd x = false := by
  intro x hx
  rcases mem_printArgs hx with rfl | ⟨w,hw,hm⟩
  · decide
  · exact not_lineEnd ((h w hw).2 x hm)

theorem newline_notMem_printItem {i : Item} (h : Printable nullTokens i) : newline ∉ printItem i := by
  cases i with
  | comment text =>
    rw [printItem,List.mem_cons,not_or]
    exact ⟨by decide,h⟩
  | command cmd args =>
    rw [printItem,List.mem_append,not_or]
    constructor
    · intro hm
      have hb := cmdName_blankless cmd newline hm
      rw [newline_blank] at hb
      cases hb
    · intro hm
      have hl := printArgs_lineless h.1 newline hm
      exact absurd hl (by decide)

theorem getlines_print {script : List Item} (h : ∀ i ∈ script, Printable nullTokens i) :
    getlines (print script) = script.map fun i => printItem i ++ [newline] := by
  induction script with
  | nil => rfl
  | cons i script ih =>
    obtain ⟨hi,h⟩ := List.forall_mem_cons.mp h
    have hp : print (i::script) = printItem i ++ newline::print script := by simp [print]
    rw [hp,getlines_line (newline_notMem_printItem hi),ih h,List.map_cons]

/-! ### Arguments -/

theorem strtokR_nil (nullTokens : Bool) (delim : Byte → Bool) :
    strtokR nullTokens delim none (some []) = some (none,some []) := rfl

/-- The loop of `parse_command` when there is no token. -/
theorem parseLoop_end {c : Context} {l : List (List Byte)} {n : ℕ} {save : Option (List Byte)}
    (hf : Filled c l) (hlen : l.length+n ≤ maxArgsLimit)
    (hs : strtokR nullTokens isBlank none save = some (none,save)) : ∃ c',
      parseLoop nullTokens n l.length none save c = some (l.length,none,save,c') ∧ Filled c' l := by
  cases n with
  | zero => exact ⟨c,rfl,hf⟩
  | succ n =>
    have hset := setCmd_eq (j := l.length) (by omega) none c
    refine ⟨_,?_,hf.set le_rfl none⟩
    simp [parseLoop,hs,hset]

/-- The loop finds the words in order; the last of one too many is left. -/
theorem parseLoop_words {n : ℕ} {s save : Option (List Byte)} {c : Context} {l : List (List Byte)}
    (hf : Filled c l) (hlen : l.length+n ≤ maxArgsLimit) (hw : ∀ w ∈ args, Word w)
    (hle : args.length ≤ n+1) (hne : args ≠ []) (hs : s.or save = some (printArgs args).tail) :
    ∃ ws rest s' save' c', parseLoop nullTokens n l.length s save c =
        some ((l ++ ws).length,s',save',c') ∧ Filled c' (l ++ ws) ∧ ws.length ≤ n ∧
      s'.or save' = some rest ∧
      (rest = [] ∧ ws = args.map (·.1) ∨
        ∃ w, Word w ∧ rest = w.1 ∧ ws ++ [w.1] = args.map (·.1)) := by
  induction n generalizing args s save c l with
  | zero =>
    obtain ⟨w,rfl⟩ : ∃ w, args = [w] := by
      rw [← List.length_eq_one_iff]
      exact Nat.le_antisymm hle (List.length_pos_iff.mpr hne)
    refine ⟨[],w.1,s,save,c,by simp [parseLoop],by simpa using hf,le_rfl,?_,.inr ⟨w,hw w (by simp),rfl,rfl⟩⟩
    rw [hs]
    simp [printArgs]
  | succ n ih =>
    obtain ⟨w,args,rfl⟩ := List.exists_cons_of_ne_nil hne
    obtain ⟨hword,hw⟩ := List.forall_mem_cons.mp hw
    rw [printArgs_cons,List.tail_cons] at hs
    have hset := setCmd_eq (j := l.length) (by omega) (some w.1) c
    have hlen' : (l ++ [w.1]).length+n ≤ maxArgsLimit := by simp; omega
    cases args with
    | nil =>
      have htok : strtok isBlank (w.1 ++ printArgs []) = (some w.1,[]) := by
        rw [printArgs,List.flatMap_nil,List.append_nil]
        exact strtok_last hword.2 hword.1
      obtain ⟨c',hloop,hf'⟩ := parseLoop_end (hf.push w.1) hlen' (strtokR_nil nullTokens isBlank)
      refine ⟨[w.1],[],none,some [],c',?_,hf',Nat.le_add_left 1 n,rfl,.inl ⟨rfl,rfl⟩⟩
      simp only [parseLoop,strtokR,hs,htok,hset,Option.bind_eq_bind,Option.bind_some]
      simpa using hloop
    | cons v args =>
      have htok : strtok isBlank (w.1 ++ printArgs (v::args)) = (some w.1,(printArgs (v::args)).tail) := by
        rw [printArgs_cons,List.tail_cons]
        exact strtok_word hword.2 hword.1 (by decide) _
      have hs' : (none : Option (List Byte)).or (some (printArgs (v::args)).tail) =
        some (printArgs (v::args)).tail := rfl
      obtain ⟨ws,rest,s',save',c',hloop,hf',hn,hrest,hws⟩ :=
        ih (hf.push w.1) hlen' hw (Nat.le_of_succ_le_succ hle) (by simp) hs'
      refine ⟨w.1::ws,rest,s',save',c',?_,by simpa using hf',Nat.succ_le_succ hn,hrest,?_⟩
      · simp only [parseLoop,strtokR,hs,htok,hset,Option.bind_eq_bind,Option.bind_some]
        simpa using hloop
      · rcases hws with ⟨hr,hws⟩ | ⟨u,hu,hr,hws⟩
        · exact .inl ⟨hr,by rw [hws]; rfl⟩
        · exact .inr ⟨u,hu,hr,by rw [List.cons_append,hws]; rfl⟩

theorem cstring_eq (w : CString) : cstring w.1 = w := by
  refine Subtype.ext (List.takeWhile_eq_self_iff.mpr fun x hx => ?_)
  have hne : x ≠ 0 := fun he => w.2 (he ▸ hx)
  simpa using hne

theorem filterMap_range {α : Type*} {l : List α} {f : ℕ → Option α}
    (h : ∀ k x, l[k]? = some x → f k = some x) : (List.range l.length).filterMap f = l := by
  induction l using List.reverseRecOn with
  | nil => rfl
  | append_singleton l x ih =>
    have hl : (List.range l.length).filterMap f = l := ih fun k y hk => by
      have hlt := (List.getElem?_eq_some_iff.mp hk).1
      exact h k y (by rw [List.getElem?_append_left hlt]; exact hk)
    have hx : f l.length = some x := h l.length x (by simp)
    rw [List.length_append,List.length_singleton,List.range_succ,List.filterMap_append,hl]
    simp [hx]

/-- The context has the arguments that were printed. -/
theorem args_eq {maxArgs : ℕ} {name : List Byte} {c : Context}
    (h : Parsed maxArgs name c (args.map (·.1))) : c.args = args := by
  have hn : c.nargs-1 = args.length := by rw [h.nargs,List.length_map]; rfl
  rw [Context.args,hn]
  refine filterMap_range fun k w hk => ?_
  have hw : (args.map (·.1))[k]? = some w.1 := by simp [hk]
  rw [h.words k w.1 hw,Option.map_some,cstring_eq]

/-- What `main` finds behind the name of a command. -/
def argString (args : List CString) : Option (List Byte) :=
  if args = [] then none else some (printArgs args).tail

/-- The arguments of a printed command are found again. -/
theorem parseCommand_print {cmd : Command} (h : Printable nullTokens (.command cmd args)) (name : List Byte)
    (c : Context) : ∃ c', parseCommand nullTokens (cmdMaxArgs cmd) name (argString args) c = some c' ∧
      c'.args = args := by
  obtain ⟨hw,hle,hbare⟩ := h
  have hmax : cmdMaxArgs cmd ≤ maxArgsLimit := by cases cmd <;> decide
  have hpos : 1 ≤ cmdMaxArgs cmd := by cases cmd <;> decide
  have hlen : [name].length+(cmdMaxArgs cmd-1) ≤ maxArgsLimit := by
    rw [List.length_singleton]
    omega
  have hf := filled_name name c
  by_cases hne : args = []
  · subst hne
    have hn := hbare rfl
    subst hn
    have hend : strtokR true isBlank none none = some (none,none) := rfl
    obtain ⟨c₁,hloop,hf₁⟩ := parseLoop_end hf hlen hend
    have hlast : strtokR true isLineEnd none none = some (none,none) := rfl
    obtain ⟨c',hc',hp⟩ := parsed_of_loop hmax hpos hf₁ (Nat.zero_le _) hloop (by simp) hlast (by simp)
    exact ⟨c',hc',args_eq hp⟩
  · have hs : (argString args).or none = some (printArgs args).tail := by simp [argString,hne]
    obtain ⟨ws,rest,s',save',c₁,hloop,hf₁,hn,hrest,hws⟩ := parseLoop_words hf hlen hw (by omega) hne hs
    have hmem : ∀ w ∈ args.map (·.1), w ≠ [] ∧ ∀ x ∈ w, isBlank x = false := by
      intro w hm
      obtain ⟨v,hv,rfl⟩ := List.mem_map.mp hm
      exact hw v hv
    rcases hws with ⟨rfl,rfl⟩ | ⟨w,hword,rfl,hws⟩
    · have hlast : strtokR nullTokens isLineEnd s' save' = some (none,some []) := by
        simp only [strtokR,hrest]
        rfl
      obtain ⟨c',hc',hp⟩ := parsed_of_loop hmax hpos hf₁ hn hloop hmem hlast (by simp)
      rw [Option.toList_none,List.append_nil] at hp
      exact ⟨c',hc',args_eq hp⟩
    · have hline : ∀ x ∈ w.1, isLineEnd x = false := fun x hx => not_lineEnd (hword.2 x hx)
      have hlast : strtokR nullTokens isLineEnd s' save' = some (some w.1,some []) := by
        simp only [strtokR,hrest,strtok_last hline hword.1]
      have hws' : ∀ v ∈ ws, v ≠ [] ∧ ∀ x ∈ v, isBlank x = false := fun v hv =>
        hmem v (hws ▸ List.mem_append_left _ hv)
      obtain ⟨c',hc',hp⟩ := parsed_of_loop hmax hpos hf₁ hn hloop hws' hlast fun v hv => by
        cases hv
        exact ⟨hword.1,hline⟩
      rw [Option.toList_some,hws] at hp
      exact ⟨c',hc',args_eq hp⟩

/-! ### Execution -/

theorem find_cmdName (cmd : Command) : cmdtable.find? (fun e => e.name == cmdName cmd) = some (fsCmd cmd) := by
  cases cmd <;> rfl

theorem cstring_line (cmd : Command) (args : List CString) :
    (cstring (cmdName cmd ++ printArgs args ++ [newline])).1 = cmdName cmd ++ printArgs args ++ [newline] := by
  refine List.takeWhile_eq_self_iff.mpr fun x hx => ?_
  have hne : x ≠ 0 := by
    rintro rfl
    rcases List.mem_append.mp hx with hx | hx
    · rcases List.mem_append.mp hx with hx | hx
      · revert hx
        cases cmd <;> decide
      · rcases mem_printArgs hx with h₀ | ⟨w,-,hm⟩
        · exact absurd h₀ (by decide)
        · exact w.2 hm
    · exact absurd hx (by decide)
  simpa using hne

theorem strtok_line (cmd : Command) (h : ∀ w ∈ args, Word w) : ∃ save,
    strtok isBlank (cmdName cmd ++ printArgs args ++ [newline]) = (some (cmdName cmd),save) ∧
      (strtok isLineEnd save).1 = argString args := by
  have hname := cmdName_blankless cmd
  have hnil := cmdName_ne_nil cmd
  cases args with
  | nil =>
    refine ⟨[],?_,rfl⟩
    rw [printArgs,List.flatMap_nil,List.append_nil]
    exact strtok_word hname hnil (by decide) []
  | cons w args =>
    have hlines : ∀ x ∈ w.1 ++ printArgs args, isLineEnd x = false := fun x hx =>
      printArgs_lineless h x (by rw [printArgs_cons]; exact List.mem_cons_of_mem _ hx)
    have hne : w.1 ++ printArgs args ≠ [] := by simp [(h w (by simp)).1]
    refine ⟨w.1 ++ printArgs args ++ [newline],?_,?_⟩
    · rw [printArgs_cons,List.append_assoc,List.cons_append]
      exact strtok_word hname hnil (by decide) _
    · rw [strtok_word hlines hne (by decide) []]
      simp [argString,printArgs_cons]

/-- A printed command is executed, and its reply is printed. -/
theorem runLine_command {cmd : Command} (h : Printable nullTokens (.command cmd args)) (m : Shell) :
    ∃ c, runLine nullTokens (printItem (.command cmd args) ++ [newline]) m =
      (replyStep (m.fs,m.printed) (.command cmd args)).map fun p =>
        { m with context := c, fs := p.1, printed := p.2 } := by
  obtain ⟨c,hparse,hargs⟩ := parseCommand_print h (cmdName cmd) m.context
  obtain ⟨save,hname,hrest⟩ := strtok_line cmd h.1
  have hhead : (cmdName cmd ++ printArgs args ++ [newline]).head? ≠ some 35 := by
    cases cmd <;> simp [cmdName,ascii]
  refine ⟨c,?_⟩
  have hprint : printItem (.command cmd args) = cmdName cmd ++ printArgs args := rfl
  rw [hprint]
  simp only [runLine]
  rw [if_neg hhead,cstring_line,hname]
  simp only [CommandLine.handleCommand,find_cmdName,hrest,fsCmd,hparse,Option.bind_eq_bind,Option.bind_some,
    Func.run,hargs,replyStep,Option.map_map]
  rfl

theorem runLine_comment (text : List Byte) (m : Shell) :
    runLine nullTokens (printItem (.comment text) ++ [newline]) m = some m := rfl

theorem replyStep_fst (m : Testfs × List Printed) (a : Action) :
    (replyStep m a).map Prod.fst = fsStep m.1 a := by
  cases a <;> simp [replyStep,fsStep,DirModel.handleCommand,Function.comp_def]

theorem exec_reply {cmd : Command} {r : Reply} {s t : Testfs} (h : (cmd.func args).run s = some (r,t))
    (as : List Action) (printed : List Printed) : exec replyStep (.command cmd args::as) (s,printed) =
      exec replyStep as (t,printed ++ [.reply cmd args r]) := by
  rw [exec,replyStep,h]
  rfl

/-- Keeping the replies does not change the file system. -/
theorem exec_replyStep_fst (as : List Action) (m : Testfs × List Printed) :
    (exec replyStep as m).map Prod.fst = exec fsStep as m.1 := by
  induction as generalizing m with
  | nil => rfl
  | cons a as ih =>
    rw [exec,exec,← replyStep_fst m a]
    cases replyStep m a with
    | none => rfl
    | some m' => exact ih m'

theorem script_replies {script : List Item} (h : ∀ i ∈ script, Printable nullTokens i) (c : Context)
    (s : Testfs) (printed : List Printed) :
    (mainLoop nullTokens (getlines (print script)) ⟨c,s,printed,false⟩).map (fun m => (m.fs,m.printed)) =
      exec replyStep (actions script) (s,printed) := by
  rw [getlines_print h]
  induction script generalizing c s printed with
  | nil => rfl
  | cons i script ih =>
    obtain ⟨hi,hrest⟩ := List.forall_mem_cons.mp h
    cases i with
    | comment text =>
      rw [List.map_cons,mainLoop,runLine_comment]
      exact ih hrest c s printed
    | command cmd args =>
      obtain ⟨c',hline⟩ := runLine_command hi ⟨c,s,printed,false⟩
      rw [List.map_cons,mainLoop,hline,actions,exec]
      cases hst : replyStep (s,printed) (.command cmd args) with
      | none => simp
      | some p =>
        simp only [Option.map_some,Option.bind_eq_bind,Option.bind_some]
        exact ih hrest c' p.1 p.2

/-- `testfs` executes the commands of a script that it reads, in order, with the arguments that were
printed. It ends where they end and prints what they answer, behind what it has printed before. -/
theorem script_executes {script : List Item} (h : ∀ i ∈ script, Printable nullTokens i) (c : Context)
    (s : Testfs) (printed : List Printed) :
    (mainLoop nullTokens (getlines (print script)) ⟨c,s,printed,false⟩).map (·.fs) =
      exec fsStep (actions script) s ∧
    (mainLoop nullTokens (getlines (print script)) ⟨c,s,printed,false⟩).map (fun m => (m.fs,m.printed)) =
      exec replyStep (actions script) (s,printed) := by
  have hreplies := script_replies h c s printed
  refine ⟨?_,hreplies⟩
  rw [← exec_replyStep_fst (actions script) (s,printed),← hreplies,Option.map_map]
  rfl

/-- A comment, and the text of three commands. -/
def work : List Item :=
  [.comment (ascii " a file comes and goes"),.command .create [fileName],.command .mkdir [dirName],
    .command .rm [fileName]]

example : print work = ascii "# a file comes and goes\ncreate f\nmkdir d\nrm f\n" := by decide

theorem work_replies : exec replyStep (actions work) (freshTestfs,[]) =
    some (usedTestfs,[.reply .create [fileName] (0,.nothing),.reply .mkdir [dirName] (0,.nothing),
      .reply .rm [fileName] (0,.nothing)]) := by
  have hcreate : (Command.create.func [fileName]).run freshTestfs = some ((0,.nothing),fileTestfs) := by
    obtain ⟨-,-,-,hrun,-⟩ := fileTestfs_created
    exact hrun
  have hmkdir : (Command.mkdir.func [dirName]).run fileTestfs = some ((0,.nothing),dirTestfs) :=
    dirTestfs_run.1
  have hrm : (Command.rm.func [fileName]).run dirTestfs = some ((0,.nothing),usedTestfs) :=
    usedTestfs_removed
  change exec replyStep [.command .create [fileName],.command .mkdir [dirName],.command .rm [fileName]]
    (freshTestfs,[]) = _
  rw [exec_reply hcreate,exec_reply hmkdir,exec_reply hrm]
  rfl

theorem work_executes :
    (mainLoop false (getlines (print work)) ⟨⟨0,fun _ => none⟩,freshTestfs,[],false⟩).map
      (fun m => (m.fs,m.printed)) = some (usedTestfs,[.reply .create [fileName] (0,.nothing),
        .reply .mkdir [dirName] (0,.nothing),.reply .rm [fileName] (0,.nothing)]) := by
  have hfile : Word fileName := ⟨by decide,by decide⟩
  have hdir : Word dirName := ⟨by decide,by decide⟩
  have hcmd : ∀ {w}, Word w → ∀ cmd : Command, 1 ≤ cmdMaxArgs cmd → Printable false (.command cmd [w]) :=
    fun hw cmd hle => ⟨by simpa using hw,hle,fun hn => by cases hn⟩
  have hprintable : ∀ i ∈ work, Printable false i := by
    intro i hi
    simp only [work,List.mem_cons,List.not_mem_nil,or_false] at hi
    rcases hi with rfl | rfl | rfl | rfl
    · change newline ∉ ascii " a file comes and goes"
      decide
    · exact hcmd hfile .create (by decide)
    · exact hcmd hdir .mkdir (by decide)
    · exact hcmd hfile .rm (by decide)
  exact (script_executes hprintable _ freshTestfs []).2.trans work_replies

end CommandScripts
end OsLabs

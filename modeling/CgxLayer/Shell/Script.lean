import CgxLayer.Shell.Words

namespace CgxLayer.Shell

open Text

structure Branch where
  taken : Bool
  entered : Bool
deriving DecidableEq

structure State where
  vars : Vars
  files : Text → Text
  branches : List Branch
  returned : Bool

namespace State

def setVar (s : State) (n v : Text) : State :=
  { s with vars := fun m => if m = n then some v else s.vars m }

def appendFile (s : State) (file text : Text) : State :=
  { s with files := fun f => if f = file then s.files f ++ text else s.files f }

def active (s : State) : Bool := s.branches.all Branch.taken

end State

/-- The variables that some shell does not let a script set, or not to any value, or sets itself, and the
one that changes how words are split. -/
def specialNames : List Text :=
  ["IFS", "OPTIND", "LINENO", "PPID", "UID", "EUID", "GROUPS", "RANDOM", "SRANDOM", "SECONDS", "EPOCHSECONDS",
    "EPOCHREALTIME", "SHELLOPTS", "BASHOPTS", "BASHPID", "BASH_ALIASES", "BASH_ARGC", "BASH_ARGV", "BASH_ARGV0",
    "BASH_CMDS", "BASH_COMMAND", "BASH_LINENO", "BASH_REMATCH", "BASH_SOURCE", "BASH_SUBSHELL", "BASH_VERSINFO",
    "BASH_MONOSECONDS", "BASH_TRAPSIG", "COMP_WORDBREAKS", "DIRSTACK", "FUNCNAME", "HISTCMD", "PIPESTATUS",
    "_"].map String.toList

def exportVar (s : State) (arg : Text) : Option State :=
  match splitFirst '=' arg with
  | some (n, v) => if isName n && n ∉ specialNames then some (s.setVar n v) else none
  | none => if isName arg then some s else none

/-- `echo` is left out where shells differ on it: an option or a backslash in what goes to a file. -/
def echo (s : State) (args : List Text) : Option Text → Option State
  | none => some s
  | some file =>
    if args.head? = some "-n".toList ∨ args.any (fun a => '\\' ∈ a) then none
    else some (s.appendFile file (joinWith ' ' args ++ ['\n']))

def execSimple (s : State) (args : List Text) (target : Option Text) : Option State :=
  match args with
  | [] => if target = none then some s else none
  | name :: args =>
    if name = "echo".toList then echo s args target
    else if target ≠ none then none
    else if name = "export".toList then args.foldlM exportVar s
    else if name = "return".toList then some { s with returned := true }
    else none

def test (W : World) (args : List Text) : Option Bool :=
  if args.take 2 = ["test".toList, "-z".toList] then
    match args.drop 2 with
    | [x] => some x.isEmpty
    | _ => none
  else if args.take 3 = ["[".toList, "!".toList, "-d".toList] then
    match args.drop 3 with
    | [x, y] => if y = "]".toList then some (!W.isDir x) else none
    | [y] => if y = "]".toList then some false else none
    | _ => none
  else none

/-- The text of a word that can be a reserved word. -/
def bareText : Word → Option Text
  | [] => some []
  | .char c false :: w => (bareText w).map (fun s => c :: s)
  | _ :: _ => none

def expandTarget (W : World) (vars : Vars) : Option Word → Option (Option Text)
  | none => some none
  | some w =>
    match expand W vars w with
    | some [f] => some (some f)
    | _ => none

def execCommand (W : World) (s : State) (c : Command) : Option State :=
  if s.active then
    match expandAll W s.vars c.words, expandTarget W s.vars c.target with
    | some args, some target => execSimple s args target
    | _, _ => none
  else some s

def openBranch (W : World) (s : State) (ws : List Word) : Option State :=
  if s.active then
    match (expandAll W s.vars ws).bind (test W) with
    | some b => some { s with branches := ⟨b, false⟩ :: s.branches }
    | none => none
  else some { s with branches := ⟨false, false⟩ :: s.branches }

def enterBranch (s : State) : Option State :=
  match s.branches with
  | ⟨b, false⟩ :: bs => some { s with branches := ⟨b, true⟩ :: bs }
  | _ => none

def closeBranch (s : State) : Option State :=
  match s.branches with
  | ⟨_, true⟩ :: bs => some { s with branches := bs }
  | _ => none

/-- One command of a script; a list of commands as the condition of an `if` is left out. -/
def stepCommand (W : World) (s : State) (c : Command) : Option State :=
  if s.returned then some s
  else
    let name := (c.words.head?.bind bareText).getD []
    if name = "if".toList then openBranch W s c.words.tail
    else if name = "then".toList then if c.words.tail = [] then enterBranch s else none
    else if name = "fi".toList then if c.words.tail = [] then closeBranch s else none
    else if s.branches.all Branch.entered then execCommand W s c
    else none

def run (W : World) (s : State) (cs : List Command) : Option State := cs.foldlM (stepCommand W) s

/-- The state after a script is sourced, `none` where the shell does not accept it. -/
def source (W : World) (s : State) (text : Text) : Option State :=
  ((parse text).bind (run W s)).bind
    (fun t => if t.returned ∨ t.branches = [] then some t else none)

end CgxLayer.Shell

import CgxLayer.Shell.Read

namespace CgxLayer.Cryptdisks

open Text Shell

/-- A line of /etc/crypttab as `read dst src key opts` gets it. -/
structure TabEntry where
  dst : Text
  src : Text
  key : Text
  opts : Text
deriving DecidableEq

def isSpaceClass (c : Char) : Bool := c ∈ [' ', '\t', '\n', Char.ofNat 11, Char.ofNat 12, '\r']

-- `egrep -v "^[[:space:]]*(#|$)"`
def isEntryLine (l : Text) : Bool :=
  match l.dropWhile isSpaceClass with
  | [] => false
  | c :: _ => c ≠ '#'

def tabEntry (l : Quoted) : TabEntry :=
  match readVars 4 l with
  | [dst, src, key, opts] => ⟨dst, src, key, opts⟩
  | _ => ⟨[], [], [], []⟩

def entries (crypttab : Text) : List TabEntry :=
  (logicalLines ((crypttab.splitOn '\n').filter isEntryLine)).map tabEntry

inductive InitState where
  | early
  | udev
  | manual
  | remaining
deriving DecidableEq

structure Setting where
  initState : InitState
  defaultLoud : Bool
  forceStart : Bool
  defaultCheck : Text
  defaultPrecheck : Text
  executable : Text → Bool
  isCommand : Text → Bool

structure Options where
  params : Text
  luksParams : Text
  cryptHeader : Text
  tcryptParams : Text
  plainParams : Text
  check : Text
  checkArgs : Text
  precheck : Text
  tries : ℕ
  tmpfs : Text
  makeSwap : Bool
  useLuks : Bool
  useTcrypt : Bool
  keyscript : Text
  ignore : Bool
  loud : Bool
deriving DecidableEq

def Options.initial (s : Setting) : Options where
  params := []
  luksParams := []
  cryptHeader := []
  tcryptParams := []
  plainParams := []
  check := []
  checkArgs := []
  precheck := []
  tries := 3
  tmpfs := []
  makeSwap := false
  useLuks := false
  useTcrypt := false
  keyscript := []
  ignore := false
  loud := s.defaultLoud

-- `$(echo -n $1 | sed 's/ *#.*//')`
def stripComment (opts : Text) : Text :=
  let opts := joinWith ' ' (words shBlank opts)
  if '#' ∈ opts then (((opts.takeWhile (· ≠ '#')).reverse).dropWhile (· = ' ')).reverse else opts

def optParam (opt : Text) : Text := opt.takeWhile (· ≠ '=')

-- what follows the last `=`
def optValue (opt : Text) : Text :=
  if '=' ∈ opt then (opt.reverse.takeWhile (· ≠ '=')).reverse else []

/-- The value of digits that `test` can compare. -/
def shNumber (s : Text) : Option ℕ :=
  let n := Nat.ofDigitChars 10 s 0
  if s ≠ [] ∧ s.all Char.isDigit ∧ n ≤ 9223372036854775807 then some n else none

def checksDir : Text := "/lib/cryptsetup/checks/".toList

def scriptsDir : Text := "/lib/cryptsetup/scripts/".toList

def findCheck (s : Setting) (value : Text) : Option Text :=
  if s.executable value then some value
  else if s.executable (checksDir ++ value) then some (checksDir ++ value)
  else none

def findKeyscript (s : Setting) (value : Text) : Option Text :=
  if s.executable value then some value
  else if s.executable (scriptsDir ++ value) then some (scriptsDir ++ value)
  else if s.isCommand value then some value
  else none

def orDefault (value fallback : Text) : Text := if value = [] then fallback else value

def withValue (value : Text) (o : Options) : Option Options := if value = [] then none else some o

/-- One turn of the loop of `parse_opts`, none where it returns 1. -/
def parseOpt (s : Setting) (o : Options) (opt : Text) : Option Options :=
  let param := String.ofList (optParam opt)
  let value := optValue opt
  match param with
  | "readonly" => some { o with params := o.params ++ " -r".toList }
  | "cipher" => withValue value { o with plainParams := o.plainParams ++ " -c ".toList ++ value }
  | "size" =>
    -- an empty value passes the first test and fails the comparison after it
    match shNumber value with
    | some n => if 0 < n then some { o with plainParams := o.plainParams ++ " -s ".toList ++ value } else none
    | none => none
  | "hash" => withValue value { o with plainParams := o.plainParams ++ " -h ".toList ++ value }
  | "offset" => withValue value { o with plainParams := o.plainParams ++ " -o ".toList ++ value }
  | "skip" => withValue value { o with plainParams := o.plainParams ++ " -p ".toList ++ value }
  | "verify" => some { o with params := o.params ++ " -y".toList }
  | "check" => (findCheck s (orDefault value s.defaultCheck)).map (fun c => { o with check := c })
  | "checkargs" => some { o with checkArgs := orDefault value o.checkArgs }
  | "precheck" => (findCheck s (orDefault value s.defaultPrecheck)).map (fun c => { o with precheck := c })
  | "tries" => some { o with tries := (shNumber value).getD o.tries }
  | "discard" => some { o with params := o.params ++ " --allow-discards".toList }
  | "swap" => some { o with makeSwap := true }
  | "tmp" => some { o with tmpfs := orDefault value "ext4".toList }
  | "luks" => some { o with useLuks := true }
  | "header" => withValue value
      { o with luksParams := o.luksParams ++ " --header=".toList ++ value, cryptHeader := value }
  | "tcrypt" => some { o with useTcrypt := true }
  | "noearly" => some { o with ignore := o.ignore || s.initState = .early }
  | "noauto" => some { o with ignore := o.ignore || s.initState ≠ .manual }
  | "loud" => some { o with loud := true }
  | "quiet" => some { o with loud := false }
  | "keyscript" =>
    if o.keyscript ≠ [] then none
    else if value = [] then none
    else (findKeyscript s value).map (fun script => { o with keyscript := script })
  | "keyslot" => withValue value { o with luksParams := o.luksParams ++ " --key-slot ".toList ++ value }
  | "tcrypthidden" => some { o with tcryptParams := o.tcryptParams ++ " --tcrypt-hidden".toList }
  | "veracrypt" => some { o with tcryptParams := o.tcryptParams ++ " --veracrypt".toList }
  | _ => some o

def parseOpts (s : Setting) (opts : Text) : Option Options :=
  ((stripComment opts).splitOn ',').foldlM (parseOpt s) (Options.initial s)

end CgxLayer.Cryptdisks

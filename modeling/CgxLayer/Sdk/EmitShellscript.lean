import CgxLayer.Shell.Exports

namespace CgxLayer.Sdk

open Text Shell

/-- `d.getVar`, which gives a string or None. -/
abbrev Datastore := Text → Option Text

def safeChar (c : Char) : Bool :=
  c.isAlphanum || c ∈ ['_', '@', '%', '+', '=', ':', ',', '.', '/', '-']

/-- `var == quote(var)` -/
def needsNoQuotes (var : Text) : Bool := !var.isEmpty && var.all safeChar

def emits (var : Text) : Bool := needsNoQuotes var && '-' ∉ var

def setvar (var val : Text) : Text := "export ".toList ++ var ++ "=\"".toList ++ val ++ "\"\n".toList

def emit (var : Text) (val : Option Text) (weak : Bool) : Text :=
  match val with
  | none => []
  | some val =>
    if emits var then
      if weak then
        "if test -z \"$\x7b".toList ++ var ++ "\x7d\"; then\n".toList ++
          ("    ".toList ++ setvar var val) ++ "fi\n".toList
      else setvar var val
    else []

def uniqueFrom (seen : List Text) : List Text → List Text
  | [] => []
  | x :: xs => if x ∈ seen then uniqueFrom seen xs else x :: uniqueFrom (x :: seen) xs

def unique (xs : List Text) : List Text := uniqueFrom [] xs

def dirname (p : Text) : Text :=
  let head := (p.reverse.dropWhile (· ≠ '/')).reverse
  if head.all (· = '/') then head else (head.reverse.dropWhile (· = '/')).reverse

def pathName : Text := "PATH".toList

def stampName : Text := "STAMP".toList

/-- What the loop holds for a listed variable before it puts the weak variables in; a sysroot that is
not set makes `replace` raise. -/
def held (d : Datastore) (var : Text) : Option Text :=
  match d "STAGING_DIR_NATIVE".toList, d "STANDALONE_SYSROOT_NATIVE".toList,
    d "STAGING_DIR_HOST".toList, d "STANDALONE_SYSROOT".toList with
  | some stagingDirNative, some standaloneNative, some stagingDirHost, some standalone =>
    let val := (d var).getD []
    let val := replace stagingDirNative standaloneNative val
    let val := replace stagingDirHost standalone val
    let val := if var = pathName then val ++ ":$PATH".toList else val
    let val := if var = "CONFIGURE_FLAGS".toList then (d "CONFIGUREOPTS".toList).getD [] else val
    some (if var = stampName then dirname val else val)
  | _, _, _, _ => none

def weakVal (d : Datastore) (w : Text) : Text := (d w).getD []

def substituted (d : Datastore) (weakvars : List Text) (val : Text) : Text :=
  weakvars.foldl (fun val w => replace (weakVal d w) (Piece.ref w).text val) val

def exported (d : Datastore) (weakvars : List Text) (var val : Text) : Text :=
  if val = [] then [] else emit var (some (substituted d weakvars val)) false

def advice : Text := "In order to use this file, you need to do an image build and ".toList

def runBitbake : Text := "run \"bitbake ".toList

def bitbakeCall (pn : Text) : Text := runBitbake ++ pn ++ ['"']

def stampCheck (pn : Text) : Text :=
  "if [ ! -d $STAMP ] ; then\n".toList ++
    ("   echo -n '".toList ++ advice ++ "'\n".toList) ++
    ("   echo '".toList ++ bitbakeCall pn ++ "'\n".toList) ++
    "   return 1\nfi\n".toList

def listedText (d : Datastore) (weakvars : List Text) (var : Text) : Option Text :=
  match held d var with
  | none => none
  | some val =>
    if var = stampName then
      match d "PN".toList with
      | none => none
      | some pn => some (exported d weakvars var val ++ stampCheck pn)
    else some (exported d weakvars var val)

def listedTexts (d : Datastore) (weakvars : List Text) : List Text → Option Text
  | [] => some []
  | var :: vars =>
    match listedText d weakvars var, listedTexts d weakvars vars with
    | some text, some rest => some (text ++ rest)
    | _, _ => none

def weakName : Text := "EMIT_SHELLSCRIPT_VARS_WEAK".toList

def varsName : Text := "EMIT_SHELLSCRIPT_VARS".toList

def weakvars (d : Datastore) : List Text := unique (words pyBlank ((d weakName).getD []))

def listed (d : Datastore) : List Text := unique (words pyBlank ((d varsName).getD []))

def parted (var val : Text) : Text × Option Text :=
  if var = pathName then (val.take (val.length - 5), some pathName) else (val, none)

theorem held_path {d : Datastore} {val : Text} (h : held d pathName = some val) :
    ∃ v, val = v ++ "$PATH".toList := by
  unfold held at h
  split at h
  · rename_i native standaloneNative host standalone _ _ _ _
    have hflags : pathName ≠ "CONFIGURE_FLAGS".toList := by decide
    have hstamp : pathName ≠ stampName := by decide
    simp only [if_neg hflags, if_neg hstamp, if_true, Option.some.injEq] at h
    refine ⟨replace host standalone (replace native standaloneNative ((d pathName).getD [])) ++ [':'], ?_⟩
    rw [← h, List.append_assoc]
    rfl
  · cases h

end CgxLayer.Sdk

import Mathlib.Logic.Function.Basic
import CgxLayer.FileTree
import CgxLayer.Text

namespace CgxLayer.Lxc

open Text

variable {F : Type}

abbrev Tree (F : Type) := FileTree Text F

def emptyTree : Tree F := fun p => if p = [] then some .dir else none

inductive Comp where
  | gzip
  | bzip2
  deriving DecidableEq

def Comp.suffix : Comp → Text
  | .gzip => ".gz".toList
  | .bzip2 => ".bz".toList

def Comp.ownSuffix : Comp → Text
  | .gzip => ".gz".toList
  | .bzip2 => ".bz2".toList

inductive Content (F : Type) where
  | ext (t : Tree F)
  | tar (t : Tree F)
  | gzip (c : Content F)
  | bzip2 (c : Content F)
  | empty

def pack : Comp → Content F → Content F
  | .gzip => .gzip
  | .bzip2 => .bzip2

def unpack : Comp → Content F → Option (Content F)
  | .gzip, .gzip c => some c
  | .bzip2, .bzip2 c => some c
  | _, _ => none

/-- A file, by its name or as the one that `mktemp` made `n`-th. -/
inductive Source where
  | named (name : Text)
  | temp (n : ℕ)

structure Mount (F : Type) where
  tree : Tree F
  fname : Source
  ro : Bool

inductive Entry (F : Type) where
  | file (c : Content F)
  | dir
  | mounted (m : Mount F)
  | untarred (t : Tree F)

/-- The files by name, ROOTFS where it exists, and what `mktemp` made, in order, `none` once it is
removed. -/
structure Host (F : Type) where
  files : Text → Option (Content F)
  rootfs : Option (Tree F)
  temps : List (Option (Entry F))

/-- A directory on a command line, which may be an empty word. -/
inductive Place where
  | empty
  | rootfs
  | temp (n : ℕ)
  deriving DecidableEq

/-- How the commands end whose status the script looks at, and what a `tar -x` leaves in its
directory that fails or has an empty operand. -/
structure Ends (F : Type) where
  decompresses : Bool
  mounts : Bool
  untars : Bool
  compresses : Bool
  extracted : Tree F

namespace Host

def content (h : Host F) : Source → Option (Content F)
  | .named name => h.files name
  | .temp n =>
    match h.temps[n]? with
    | some (some (.file c)) => some c
    | _ => none

def mktemp (h : Host F) (entry : Option (Entry F)) : Host F := { h with temps := h.temps ++ [entry] }

def setTemp (h : Host F) (n : ℕ) (entry : Option (Entry F)) : Host F := { h with temps := h.temps.set n entry }

def rm (h : Host F) : Source → Host F
  | .named name => { h with files := Function.update h.files name none }
  | .temp n => h.setTemp n none

-- `mount -o loop`
def mount (e : Ends F) (h : Host F) (fname : Source) (ro : Bool) (n : ℕ) : Option (Host F) :=
  match e.mounts, h.content fname with
  | true, some (.ext t) => some (h.setTemp n (some (.mounted ⟨t, fname, ro⟩)))
  | _, _ => none

def umount (h : Host F) : Place → Host F
  | .temp n =>
    match h.temps[n]? with
    | some (some (.mounted _)) => h.setTemp n (some .dir)
    | _ => h
  | _ => h

def rmdir (h : Host F) : Place → Host F
  | .temp n =>
    match h.temps[n]? with
    | some (some .dir) => h.setTemp n none
    | _ => h
  | _ => h

-- `gzip` or `bzip2`, the file taking its suffix
def compress (e : Ends F) (h : Host F) (comp : Comp) (name : Text) : Bool × Host F :=
  match e.compresses, h.files name with
  | true, some c =>
    let removed := Function.update h.files name none
    (true, { h with files := Function.update removed (name ++ comp.ownSuffix) (some (pack comp c)) })
  | _, _ => (false, h)

-- for which `-d` takes off `.gz` or `.bz`
def unpackedName (name : Text) : Text := name.take (name.length - 3)

def unpacked (e : Ends F) (h : Host F) (comp : Comp) (name : Text) : Option (Content F) :=
  if e.decompresses then (h.files name).bind (unpack comp) else none

end Host

def likeRev : Text → Text → Bool
  | [], _ => true
  | _ :: _, [] => false
  | p :: pat, c :: s => (p == '?' || p == c) && likeRev pat s

/-- The pattern of a `case` that is a `*` and `pat`. -/
def endsLike (pat s : Text) : Bool := likeRev pat.reverse s.reverse

structure Kind where
  mounted : Bool
  comp : Option Comp

def fileKind (filename : Text) : Option Kind :=
  if endsLike ".ext?.gz".toList filename then some ⟨true, some .gzip⟩
  else if endsLike ".ext?.bz".toList filename then some ⟨true, some .bzip2⟩
  else if endsLike ".ext?".toList filename then some ⟨true, none⟩
  else if endsLike ".tar.gz".toList filename then some ⟨false, some .gzip⟩
  else if endsLike ".tar.bz".toList filename then some ⟨false, some .bzip2⟩
  else if endsLike ".tar".toList filename then some ⟨false, none⟩
  else none

-- `s/[.][^.]*$//`
def cutSuffix (line : Text) : Text :=
  if '.' ∈ line then ((line.reverse.dropWhile (· != '.')).drop 1).reverse else line

/-- What `echo "${filename}" | sed 's/[.][^.]*$//'` gives in a command substitution. -/
def sedName (filename : Text) : Text :=
  ((joinWith '\n' ((filename.splitOn '\n').map cutSuffix)).reverse.dropWhile (· == '\n')).reverse

def exitFailure (h : Host F) : Host F := { h with rootfs := none }

def decompress (e : Ends F) (inplace : Bool) (filename : Text) (comp : Option Comp) (h : Host F) :
    Option Source × Host F :=
  match comp with
  | none => (some (.named filename), h)
  | some k =>
    match h.unpacked e k filename with
    | none => (none, if inplace then h else h.mktemp none)
    | some c =>
      if inplace then
        (some (.named (sedName filename)), { h with
          files := Function.update (Function.update h.files filename none) (Host.unpackedName filename) (some c) })
      else (some (.temp h.temps.length), h.mktemp (some (.file c)))

def mountFs (e : Ends F) (inplace : Bool) (filename : Text) (comp : Option Comp) (h : Host F) :
    Option (Place × ℕ) × Host F :=
  match decompress e inplace filename comp h with
  | (none, h) => (none, exitFailure h)
  | (some fname, h) =>
    let mntloc := h.temps.length
    let h := h.mktemp (some .dir)
    match h.mount e fname (!inplace) mntloc with
    | none =>
      let h := h.setTemp mntloc none
      (none, exitFailure (match comp with
        | none => h
        | some k => if inplace then (h.compress e k (sedName filename)).2 else h.rm fname))
    | some h => (some (.temp mntloc, 0), if comp.isSome && !inplace then h.rm fname else h)

def archived (comp : Option Comp) (c : Content F) : Option (Tree F) :=
  match comp.elim (some c) (fun k => unpack k c) with
  | some (.tar t) => some t
  | _ => none

-- without a compression `"${comp}"` is an empty operand
def untar (e : Ends F) (comp : Option Comp) (c : Content F) (loc : Place) (h : Host F) : Bool × Host F :=
  let put := fun t => match loc with
    | .temp n => h.setTemp n (some (.untarred t))
    | _ => h
  match e.untars, archived comp c with
  | true, some t => (true, put (if comp.isSome then t else e.extracted))
  | _, _ => (false, put e.extracted)

def untarFs (e : Ends F) (c : Content F) (untarLoc : Place) (comp : Option Comp) (h : Host F) :
    Option (Place × ℕ) × Host F :=
  let loc := if untarLoc ≠ .empty then .temp h.temps.length else untarLoc
  match untar e comp c loc (if untarLoc ≠ .empty then h.mktemp (some .dir) else h) with
  | (false, h) => (none, exitFailure h)
  | (true, h) => (some (loc, 2), h)

/-- What `get_fs` prints and its status, or nothing where `exit_failure` ends its subshell. -/
def getFs (e : Ends F) (inplace : Bool) (filename : Text) (untarLoc : Place) (h : Host F) :
    Option (Place × ℕ) × Host F :=
  match h.files filename, fileKind filename with
  | some _, some ⟨true, comp⟩ => mountFs e inplace filename comp h
  | some c, some ⟨false, comp⟩ => untarFs e c untarLoc comp h
  | _, _ => (none, exitFailure h)

inductive Form where
  | ext (version : Char)
  | tar

structure Image (F : Type) where
  stem : Text
  form : Form
  comp : Option Comp
  tree : Tree F
  root : tree [] = some .dir

namespace Image

def ending : Form → Text
  | .ext version => ".ext".toList ++ [version]
  | .tar => ".tar".toList

def plainName (i : Image F) : Text := i.stem ++ ending i.form

def filename (i : Image F) : Text := i.plainName ++ i.comp.elim [] Comp.suffix

def plainContent (i : Image F) (t : Tree F) : Content F :=
  match i.form with
  | .ext _ => .ext t
  | .tar => .tar t

def contentOf (i : Image F) (t : Tree F) : Content F :=
  i.comp.elim (i.plainContent t) (fun k => pack k (i.plainContent t))

def mounted (i : Image F) : Bool :=
  match i.form with
  | .ext _ => true
  | .tar => false

def host (i : Image F) (others : Text → Option (Content F)) : Host F :=
  ⟨Function.update others i.filename (some (i.contentOf i.tree)), some emptyTree, []⟩

theorem fileKind_filename (i : Image F) : fileKind i.filename = some ⟨i.mounted, i.comp⟩ := by
  obtain ⟨stem, form, comp, tree, root⟩ := i
  cases form with
  | ext version =>
    rcases comp with _ | _ | _ <;>
      simp [fileKind, filename, plainName, ending, Comp.suffix, endsLike, likeRev, mounted]
  | tar =>
    rcases comp with _ | _ | _ <;>
      simp [fileKind, filename, plainName, ending, Comp.suffix, endsLike, likeRev, mounted]

end Image

variable {e : Ends F} {inplace : Bool} {filename : Text} {comp : Option Comp} {h h' : Host F} {fname : Source}

theorem mktemp_setTemp (h : Host F) (x y : Option (Entry F)) :
    (h.mktemp x).setTemp h.temps.length y = h.mktemp y := by
  rw [Host.setTemp, Host.mktemp, List.set_append_right _ _ (Nat.le_refl _), Nat.sub_self]
  rfl

theorem mount_eq_some {ro : Bool} {n : ℕ} (hmount : h.mount e fname ro n = some h') :
    e.mounts = true ∧ ∃ t, h.content fname = some (.ext t) ∧ h' = h.setTemp n (some (.mounted ⟨t, fname, ro⟩)) := by
  rw [Host.mount] at hmount
  split at hmount
  · rename_i t hmounts hcontent
    exact ⟨hmounts, t, hcontent, (Option.some.inj hmount).symm⟩
  · cases hmount

theorem mount_eq {t : Tree F} (hcontent : h.content fname = some (.ext t)) (ro : Bool) (n : ℕ) :
    h.mount e fname ro n = if e.mounts then some (h.setTemp n (some (.mounted ⟨t, fname, ro⟩))) else none := by
  rw [Host.mount, hcontent]
  cases e.mounts <;> rfl

theorem mountFs_of_decompress (hdec : decompress e inplace filename comp h = (none, h')) :
    mountFs e inplace filename comp h = (none, exitFailure h') := by
  rw [mountFs, hdec]

theorem mountFs_of_mount {opened : Host F} (hdec : decompress e inplace filename comp h = (some fname, h'))
    (hmount : (h'.mktemp (some .dir)).mount e fname (!inplace) h'.temps.length = some opened) :
    mountFs e inplace filename comp h =
      (some (.temp h'.temps.length, 0), if comp.isSome && !inplace then opened.rm fname else opened) := by
  simp only [mountFs, hdec, hmount]

theorem mountFs_of_refused (hdec : decompress e inplace filename comp h = (some fname, h'))
    (hmount : (h'.mktemp (some .dir)).mount e fname (!inplace) h'.temps.length = none) :
    mountFs e inplace filename comp h = (none, exitFailure (match comp with
      | none => h'.mktemp none
      | some k => if inplace then ((h'.mktemp none).compress e k (sedName filename)).2
        else (h'.mktemp none).rm fname)) := by
  simp only [mountFs, hdec, hmount, mktemp_setTemp]

theorem mountFs_failure (hget : (mountFs e inplace filename comp h).1 = none) :
    (mountFs e inplace filename comp h).2.rootfs = none := by
  rcases hdec : decompress e inplace filename comp h with ⟨_ | fname, h'⟩
  · rw [mountFs_of_decompress hdec]
    rfl
  · cases hmount : (h'.mktemp (some .dir)).mount e fname (!inplace) h'.temps.length with
    | none =>
      rw [mountFs_of_refused hdec hmount]
      rfl
    | some h'' =>
      simp only [mountFs, hdec, hmount] at hget
      cases hget

theorem untarFs_failure {c : Content F} {loc : Place} (hget : (untarFs e c loc comp h).1 = none) :
    (untarFs e c loc comp h).2.rootfs = none := by
  simp only [untarFs] at hget ⊢
  split at hget
  · rfl
  · cases hget

theorem getFs_failure {loc : Place} (hget : (getFs e inplace filename loc h).1 = none) :
    (getFs e inplace filename loc h).2.rootfs = none := by
  unfold getFs at hget ⊢
  split at hget
  · exact mountFs_failure hget
  · exact untarFs_failure hget
  · rfl

variable {i : Image F} {others : Text → Option (Content F)}

namespace Image

theorem host_filename : (i.host others).files i.filename = some (i.contentOf i.tree) := Function.update_self _ _ _

theorem getFs_eq (loc : Place) : getFs e inplace i.filename loc (i.host others) =
    if i.mounted then mountFs e inplace i.filename i.comp (i.host others)
    else untarFs e (i.contentOf i.tree) loc i.comp (i.host others) := by
  rw [getFs, host_filename, i.fileKind_filename]
  cases i.mounted <;> rfl

theorem unpacked_eq {k : Comp} (hcomp : i.comp = some k) : (i.host others).unpacked e k i.filename =
    if e.decompresses then some (i.plainContent i.tree) else none := by
  rw [Host.unpacked, host_filename, contentOf, hcomp]
  cases k <;> rfl

theorem plainContent_mounted (hmounted : i.mounted = true) (t : Tree F) : i.plainContent t = .ext t := by
  obtain ⟨stem, form, comp, tree, root⟩ := i
  cases form with
  | ext version => rfl
  | tar => cases hmounted

theorem plainContent_untarred (hmounted : i.mounted = false) (t : Tree F) : i.plainContent t = .tar t := by
  obtain ⟨stem, form, comp, tree, root⟩ := i
  cases form with
  | ext version => cases hmounted
  | tar => rfl

theorem contentOf_plain (hmounted : i.mounted = true) (hcomp : i.comp = none) (t : Tree F) :
    i.contentOf t = .ext t := by
  rw [contentOf, hcomp, Option.elim_none, plainContent_mounted hmounted]

theorem contentOf_packed {k : Comp} (hmounted : i.mounted = true) (hcomp : i.comp = some k) (t : Tree F) :
    i.contentOf t = pack k (.ext t) := by
  rw [contentOf, hcomp, Option.elim_some, plainContent_mounted hmounted]

theorem archived_eq (hmounted : i.mounted = false) : archived i.comp (i.contentOf i.tree) = some i.tree := by
  rw [archived, contentOf, plainContent_untarred hmounted]
  rcases i.comp with _ | _ | _ <;> rfl

end Image

def etcTree : Tree Unit := emptyTree.mkdirs ["etc".toList]

theorem etcTree_root : etcTree [] = some .dir := rfl

def succeeding : Ends Unit := ⟨true, true, true, true, emptyTree⟩

end CgxLayer.Lxc

import CgxLayer.Package.Xargs
import CgxLayer.Ramdisk.Shell
import CgxLayer.Sdk.EmitShellscript
import Mathlib.Logic.Function.Basic

namespace CgxLayer.Package

open Text
open Ramdisk (dotPrefix)
open Sdk (dirname)

abbrev Id := Fin 4294967295

def root : Id := ⟨0, by decide⟩

@[ext]
structure Attr where
  mode : BitVec 12
  uid : Id
  gid : Id
deriving DecidableEq

abbrev Attrs := Text → Attr

-- the characters of a path that neither the shell, sed nor xargs reads otherwise, the period apart
def pathChar (c : Char) : Bool := c.isAlphanum || c ∈ ['/', '.', '_', '-', '+', ':', '=', '@', '~']

-- `sed -e 's,${PKGD},,'` of one line
def sedRemove (pkgd : Text) : Text → Text
  | [] => []
  | c :: s => if dotPrefix pkgd (c :: s) then (c :: s).drop pkgd.length else c :: sedRemove pkgd s

def octal (m : BitVec 12) : Text := Nat.toDigits 8 m.toNat

-- The digits of a numeral, which Python lets underscores separate.
def intDigits (base : ℕ) (s : Text) : Option ℕ :=
  if (s.splitOn '_').all (fun g => !g.isEmpty && g.all (fun c => 48 ≤ c.toNat && c.toNat < 48 + base)) then
    some (Nat.ofDigitChars base (s.filter (· != '_')) 0)
  else none

def unsignedInt (base : ℕ) (s : Text) : Option ℕ :=
  if base = 8 && (startsWith ['0', 'o'] s || startsWith ['0', 'O'] s) then
    intDigits base (if s[2]? = some '_' then s.drop 3 else s.drop 2)
  else intDigits base s

def int (base : ℕ) (s : Text) : Option ℤ :=
  match strip pyBlank s with
  | '-' :: s => (unsignedInt base s).map (fun n => -(n : ℤ))
  | '+' :: s => (unsignedInt base s).map (fun n => (n : ℤ))
  | s => (unsignedInt base s).map (fun n => (n : ℤ))

def basename (p : Text) : Text := (p.reverse.takeWhile (· != '/')).reverse

def dtfile (tfile : Text) : Text := dirname tfile ++ "/.debug/".toList ++ basename tfile

def special (c : Char) : Bool := argSpecial c || c = '\r'

/-- A package tree, with the paths under PKGD in the order in which find lists them, on a machine
where no name holds a newline. -/
structure Pkg where
  pkgd : Text
  dirs : List Text
  files : List Text
  hostUserUid : Id
  isDir : Text → Bool
  inode : Text → ℕ
  -- the real path of the file that a path names, and of what it leads to
  lstat : Text → Option Text
  stat : Text → Option Text
  pkgd_plain : pkgd ≠ [] ∧ ∀ c ∈ pkgd, pathChar c = true
  nodup : (dirs ++ files).Nodup
  kinds : (∀ p ∈ dirs, isDir (pkgd ++ p) = true) ∧ ∀ p ∈ files, isDir (pkgd ++ p) = false
  newline : ∀ a r, lstat a = some r → '\n' ∉ a
  lstat_path : ∀ p ∈ dirs ++ files, lstat (pkgd ++ p) = some (pkgd ++ p)
  stat_path : ∀ p ∈ dirs ++ files, stat (pkgd ++ '/' :: p) = some (pkgd ++ p)
  -- a link to a path with such a character has it too
  stat_special : ∀ p ∈ dirs ++ files, ∀ s, stat s = some (pkgd ++ p) → (p.filter special).Sublist s
  -- `stat` is given no option
  operands : ∀ found ∈ [dirs, files], ∀ a ∈ xargs (unlines (found.map (pkgd ++ ·))), a.head? ≠ some '-'

namespace Pkg

def paths (w : Pkg) : List Text := w.dirs ++ w.files

-- `stat -c "%n %a %u %g %i"`
def statLine (w : Pkg) (σ : Attrs) (a : Text) : Option Text :=
  (w.lstat a).map fun r =>
    joinWith ' ' [a, octal (σ r).mode, decimal (σ r).uid, decimal (σ r).gid, decimal (w.inode r)]

def permsFile (w : Pkg) (σ : Attrs) (found : List Text) : Text :=
  unlines (((xargs (unlines (found.map (w.pkgd ++ ·)))).filterMap (w.statLine σ)).map (sedRemove w.pkgd))

def getFileperms (w : Pkg) (σ : Attrs) : List Text := [w.permsFile σ w.dirs, w.permsFile σ w.files]

-- `shutil.copytree` keeps the modes, and the copies are root's
def copytree (w : Pkg) (σ : Attrs) : Attrs := fun r =>
  if r ∈ w.paths.map (w.pkgd ++ ·) then { σ r with uid := root, gid := root } else σ r

def chmod (r : Text) (m : ℤ) (σ : Attrs) : Option Attrs :=
  if -2147483648 ≤ m ∧ m ≤ 2147483647 then some (Function.update σ r { σ r with mode := BitVec.ofInt 12 m })
  else none

-- What chown leaves of a mode: no set-user-ID bit, and no set-group-ID bit where the group may execute.
def keptBits (m : BitVec 12) : BitVec 12 := if m.getLsbD 3 then m &&& 0o1777#12 else m &&& 0o3777#12

def ownerId (old : Id) (i : ℤ) : Option Id :=
  if i = -1 then some old
  else if h : 0 ≤ i ∧ i < 4294967295 then some ⟨i.toNat, by omega⟩
  else none

def chown (w : Pkg) (r : Text) (uid gid : ℤ) (σ : Attrs) : Option Attrs := do
  let uid ← ownerId (σ r).uid uid
  let gid ← ownerId (σ r).gid gid
  some (Function.update σ r ⟨if w.isDir r then (σ r).mode else keptBits (σ r).mode, uid, gid⟩)

-- Fix mode if not correct from do_install
def fixMode (r : Text) (m : ℤ) (σ : Attrs) : Option Attrs :=
  if ((σ r).mode.toNat : ℤ) ≠ m then chmod r m σ else some σ

-- `st_uid`, an int, is never equal to `user`, a str: the owner is always set.
def fixOwner (w : Pkg) (r user group : Text) (σ : Attrs) : Option Attrs := do
  let checkUid ← int 10 (decimal w.hostUserUid)
  if (((σ r).uid : ℕ) : ℤ) = checkUid ∨ user = decimal w.hostUserUid then w.chown r 0 0 σ
  else do
    let setuid ← int 10 user
    let setgid ← int 10 group
    w.chown r setuid setgid σ

def fixDebug (w : Pkg) (tfile : Text) (σ : Attrs) : Option Attrs :=
  match w.stat (dtfile tfile) with
  | some d => w.chown d 0 0 σ
  | none => some σ

-- The mode that is set leaves the uid that fixOwner reads.
def fixupFile (w : Pkg) (tfile mode user group r : Text) (σ : Attrs) : Option Attrs := do
  let m ← int 8 mode
  let σ ← fixMode r m σ
  let σ ← w.fixOwner r user group σ
  w.fixDebug tfile σ

def fixupLine (w : Pkg) (σ : Attrs) (line : Text) : Option Attrs :=
  match line.splitOn ' ' with
  | [fname, mode, user, group, _] =>
    let tfile := w.pkgd ++ '/' :: fname
    match w.stat tfile with
    | some r => w.fixupFile tfile mode user group r σ
    | none => some σ
  | _ => some σ

def fixupPerms (w : Pkg) (σ : Attrs) (perms : Text) : Option Attrs :=
  ((universalNewlines perms).splitOn '\n').foldlM w.fixupLine σ

def fixupStrippedPerms (w : Pkg) (disable stripInfo : Text) (perms : List Text) (σ : Attrs) : Option Attrs :=
  if disable = ['1'] || !startsWith "ERROR: ld.so: object".toList stripInfo then some σ
  else perms.foldlM w.fixupPerms (w.copytree σ)

def wanted (w : Pkg) (old cur : Attr) : Attr :=
  if old.uid = w.hostUserUid ∨ cur.uid = w.hostUserUid then { old with uid := root, gid := root } else old

def Restores (w : Pkg) (σ : Attrs) : Prop :=
  ∀ disable stripInfo τ, disable ≠ ['1'] → startsWith "ERROR: ld.so: object".toList stripInfo = true →
    ∃ τ', w.fixupStrippedPerms disable stripInfo (w.getFileperms σ) τ = some τ' ∧
      ∀ p ∈ w.paths, τ' (w.pkgd ++ p) = w.wanted (σ (w.pkgd ++ p)) (w.copytree τ (w.pkgd ++ p))

/-- No name has a special character, chown clears no bit of a recorded mode, and the `.debug` file of
a path that is listed from `q` on is not `q`, unless `q` is given to root anyway. -/
structure Recorded (w : Pkg) (σ : Attrs) : Prop where
  names : ∀ p ∈ w.paths, ∀ c ∈ p, special c = false
  setid : ∀ p ∈ w.files, (σ (w.pkgd ++ p)).mode.getLsbD 11 = false ∧
    ((σ (w.pkgd ++ p)).mode.getLsbD 10 = true → (σ (w.pkgd ++ p)).mode.getLsbD 3 = false)
  debug : ∀ xs q ys, w.paths = xs ++ q :: ys →
    (∃ p ∈ q :: ys, w.stat (dtfile (w.pkgd ++ '/' :: p)) = some (w.pkgd ++ q)) →
    (σ (w.pkgd ++ q)).uid = w.hostUserUid ∨ w.hostUserUid = root ∨
      ((σ (w.pkgd ++ q)).uid = root ∧ (σ (w.pkgd ++ q)).gid = root)

end Pkg

end CgxLayer.Package

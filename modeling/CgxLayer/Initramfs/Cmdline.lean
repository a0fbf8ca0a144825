import CgxLayer.LastOf
import CgxLayer.Shell.Words

namespace CgxLayer.Initramfs

open Text Shell

def cmdlineWords (W : World) (cmdline : Text) : List Text :=
  (words shBlank cmdline).flatMap (fun w => pathnames W (w.map (fun c => (c, false))))

-- A `case` pattern `key*`, with what follows the key.
def keyed (key w : Text) : Option Text := if startsWith key w then some (w.drop key.length) else none

def initKey : Text := "init=".toList

def rootKey : Text := "root=".toList

structure TemplateArgs where
  init : Text
  root : Text
  ro : Text
deriving DecidableEq

def templateArg (a : TemplateArgs) (w : Text) : TemplateArgs :=
  if startsWith initKey w then { a with init := w.drop initKey.length }
  else if startsWith rootKey w then { a with root := w.drop rootKey.length }
  else if w = "ro".toList then { a with ro := "ro".toList }
  else if w = "rw".toList then { a with ro := "rw".toList }
  else a

def templateArgs (ws : List Text) : TemplateArgs := ws.foldl templateArg ⟨[], [], []⟩

structure InitArgs where
  rootDevice : Text
  init : Text
  rootFstype : Text
  rootdelay : Text
  cryptdevice : Text
deriving DecidableEq

-- `expr "x$arg" : 'x[^=]*=\(.*\)'`
def optarg (arg : Text) : Text :=
  match splitFirst '=' arg with
  | none => []
  | some (_, value) => value

def rootfstypeKey : Text := "rootfstype=".toList

def rootdelayKey : Text := "rootdelay=".toList

def cryptdeviceKey : Text := "cryptdevice=".toList

/-- One turn of the loop of `read_args`; `debug` and `shell` set nothing. -/
def readArg (a : InitArgs) (arg : Text) : InitArgs :=
  if startsWith rootKey arg then { a with rootDevice := optarg arg }
  else if startsWith initKey arg then { a with init := optarg arg }
  else if startsWith rootfstypeKey arg then { a with rootFstype := optarg arg }
  else if startsWith rootdelayKey arg then { a with rootdelay := optarg arg }
  else if startsWith cryptdeviceKey arg then { a with cryptdevice := optarg arg }
  else a

def defaultInit : Text := "/sbin/init".toList

def readArgs (ws : List Text) : InitArgs := ws.foldl readArg ⟨[], defaultInit, [], [], []⟩

structure CryptArgs where
  init : Text
  root : Text
  cryptdevice : Text
  crypto : Text
  cryptkey : Text
  rootfstype : Text
deriving DecidableEq

def cryptoKey : Text := "crypto=".toList

def cryptkeyKey : Text := "cryptkey=".toList

def cryptArg (a : CryptArgs) (x : Text) : CryptArgs :=
  if startsWith initKey x then { a with init := x.drop initKey.length }
  else if startsWith rootKey x then { a with root := x.drop rootKey.length }
  else if startsWith cryptdeviceKey x then { a with cryptdevice := x.drop cryptdeviceKey.length }
  else if startsWith cryptoKey x then { a with crypto := x.drop cryptoKey.length }
  else if startsWith cryptkeyKey x then { a with cryptkey := x.drop cryptkeyKey.length }
  else if startsWith rootfstypeKey x then { a with rootfstype := x.drop rootfstypeKey.length }
  else a

def cryptArgs (ws : List Text) : CryptArgs := ws.foldl cryptArg ⟨defaultInit, [], [], [], [], []⟩

-- `cut -d':' -fN`; a line without a colon is its own every field
def cutColon (n : ℕ) (s : Text) : Text :=
  if ':' ∈ s then ((s.splitOn ':')[n - 1]?).getD [] else s

def mapperdev (a : CryptArgs) : Text := if a.cryptdevice = [] then [] else cutColon 2 a.cryptdevice

/-- What `encrypted_boot_root` makes of the root and the init, by what is there once the volume is
opened. -/
def encryptedBootRoot (present : Text → Bool) (ws : List Text) (a : InitArgs) : InitArgs :=
  let c := cryptArgs ws
  let a := if present ("/dev/mapper/".toList ++ mapperdev c) then { a with rootDevice := c.root } else a
  if c.init ≠ [] then { a with init := c.init } else a

def lastValue (key : Text) (ws : List Text) : Option Text := lastOf (keyed key) ws

theorem optarg_of_keyed {key arg : Text} (hkey : '=' ∉ key) (h : startsWith (key ++ ['=']) arg = true) :
    optarg arg = arg.drop (key ++ ['=']).length := by
  obtain ⟨value, rfl⟩ := startsWith_iff.mp h
  have harg : key ++ ['='] ++ value = key ++ '=' :: value := List.append_cons _ _ _ |>.symm
  rw [List.drop_left, optarg, harg, splitFirst_append _ _ hkey]

theorem init_not_root {w : Text} (h : startsWith initKey w = true) : startsWith rootKey w = false := by
  obtain ⟨value, rfl⟩ := startsWith_iff.mp h
  rfl

theorem templateArg_root (a : TemplateArgs) (w : Text) :
    (templateArg a w).root = (keyed rootKey w).getD a.root := by
  rw [templateArg, keyed]
  split_ifs with hinit hroot hroot hro hrw
  · rw [init_not_root hinit] at hroot
    cases hroot
  · rfl
  · rfl
  · rfl
  · rfl
  · rfl

theorem templateArg_init (a : TemplateArgs) (w : Text) :
    (templateArg a w).init = (keyed initKey w).getD a.init := by
  rw [templateArg, keyed]
  split_ifs <;> rfl

def mode (w : Text) : Option Text := if w = "ro".toList ∨ w = "rw".toList then some w else none

theorem templateArg_ro (a : TemplateArgs) (w : Text) : (templateArg a w).ro = (mode w).getD a.ro := by
  by_cases hmode : w = "ro".toList ∨ w = "rw".toList
  · rw [mode, if_pos hmode]
    obtain rfl | rfl := hmode
    · rfl
    · rfl
  · rw [mode, if_neg hmode, templateArg, if_neg (fun h => hmode (.inl h)), if_neg (fun h => hmode (.inr h))]
    split_ifs <;> rfl

theorem templateArgs_eq (ws : List Text) : templateArgs ws =
    ⟨(lastValue initKey ws).getD [], (lastValue rootKey ws).getD [], (lastOf mode ws).getD []⟩ := by
  have hinit := foldl_last templateArg_init ⟨[], [], []⟩ ws
  have hroot := foldl_last templateArg_root ⟨[], [], []⟩ ws
  have hro := foldl_last templateArg_ro ⟨[], [], []⟩ ws
  rw [templateArgs, lastValue, lastValue, ← hinit, ← hroot, ← hro]

theorem readArg_root (a : InitArgs) (w : Text) : (readArg a w).rootDevice = (keyed rootKey w).getD a.rootDevice := by
  rw [readArg, keyed]
  split_ifs with hroot
  · exact @optarg_of_keyed "root".toList w (by decide) hroot
  all_goals rfl

theorem readArg_init (a : InitArgs) (w : Text) : (readArg a w).init = (keyed initKey w).getD a.init := by
  rw [readArg, keyed]
  split_ifs with hroot hinit hinit
  · rw [init_not_root hinit] at hroot
    cases hroot
  · rfl
  · exact @optarg_of_keyed "init".toList w (by decide) hinit
  all_goals rfl

theorem cryptArg_root (a : CryptArgs) (w : Text) : (cryptArg a w).root = (keyed rootKey w).getD a.root := by
  rw [cryptArg, keyed]
  split_ifs with hinit hroot
  · rw [init_not_root hinit] at hroot
    cases hroot
  all_goals rfl

theorem cryptArg_init (a : CryptArgs) (w : Text) : (cryptArg a w).init = (keyed initKey w).getD a.init := by
  rw [cryptArg, keyed]
  split_ifs <;> rfl

theorem readArgs_root (ws : List Text) : (readArgs ws).rootDevice = (lastValue rootKey ws).getD [] :=
  foldl_last readArg_root _ ws

theorem readArgs_init (ws : List Text) : (readArgs ws).init = (lastValue initKey ws).getD defaultInit :=
  foldl_last readArg_init _ ws

theorem cryptArgs_root (ws : List Text) : (cryptArgs ws).root = (lastValue rootKey ws).getD [] :=
  foldl_last cryptArg_root _ ws

theorem cryptArgs_init (ws : List Text) : (cryptArgs ws).init = (lastValue initKey ws).getD defaultInit :=
  foldl_last cryptArg_init _ ws

theorem scripts_agree (W : World) (cmdline : Text) (present : Text → Bool) :
    let ws := cmdlineWords W cmdline
    encryptedBootRoot present ws (readArgs ws) = readArgs ws ∧
      (readArgs ws).rootDevice = (templateArgs ws).root ∧
      (lastValue initKey ws ≠ none → (readArgs ws).init = (templateArgs ws).init) := by
  intro ws
  refine ⟨?_, ?_, fun hinit => ?_⟩
  · rw [encryptedBootRoot]
    have hroot : (cryptArgs ws).root = (readArgs ws).rootDevice := by rw [cryptArgs_root, readArgs_root]
    have hinit : (cryptArgs ws).init = (readArgs ws).init := by rw [cryptArgs_init, readArgs_init]
    rw [hroot, hinit]
    split_ifs <;> rfl
  · rw [readArgs_root, templateArgs_eq]
  · rw [readArgs_init, templateArgs_eq]
    obtain ⟨i, hi⟩ := Option.ne_none_iff_exists'.mp hinit
    rw [hi]
    rfl

end CgxLayer.Initramfs

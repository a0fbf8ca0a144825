import CgxLayer.Installer.Fstab
import CgxLayer.MountTable

namespace CgxLayer

open Text

namespace Installer

def mpref : Text := "/t".toList

def point (m : Text) : Path := Path.ofText (mpref ++ m)

def devPoint : Text := "/dev".toList

def devFs : FsInfo := ⟨"none".toList, "tmpfs".toList, none⟩

def smounts : List (Text × FsInfo) :=
  [(devPoint, devFs), ("/proc".toList, ⟨"none".toList, "proc".toList, none⟩),
    ("/sys".toList, ⟨"none".toList, "sysfs".toList, none⟩)]

end Installer

structure Installer where
  mounts : Installer.Mounts
  installed : Bool
  alldevs : List Text
  table : MountTable Installer.FsInfo

namespace Installer

def initial : Installer := ⟨Dict.empty, false, [], []⟩

def unmount (I : Installer) (m : Text) : Installer := { I with table := I.table.umount (point m) }

def mount (I : Installer) (m : Text) (info : FsInfo) : Installer :=
  { I with table := I.table.mount (point m) info }

def unmountAll (I : Installer) : Installer :=
  if I.mounts.isEmpty then I
  else
    let I := smounts.foldl (fun I e => I.unmount e.1) I
    (sorted I.mounts.keys).reverse.foldl unmount I

def mountKeys (I : Installer) : List Text → Installer
  | [] => I
  | k :: ks =>
    match I.mounts.get? k with
    | some info => mountKeys (I.mount k info) ks
    | none => mountKeys I ks

def mountAll (I : Installer) : Installer :=
  let I := I.mountKeys (sorted I.mounts.keys)
  smounts.foldl (fun I e => I.mount e.1 e.2) I

/-- `partition`: `tab` is the /tmp/fstab that mvpartition leaves. -/
def partition (efiSystem : Bool) (I : Installer) (tab : Option (List Text)) :
    Installer × Except Failure Unit :=
  let I := I.unmountAll
  match rereadFstab efiSystem tab with
  | .error e => (I, .error e)
  | .ok m => (({ I with mounts := m }).mountAll, .ok ())

inductive InstallRun where
  | tarNotStarted
  | tarFailed
  | cleanupRaised
  | completed
deriving DecidableEq

def installGuard (I : Installer) : Bool := !I.mounts.isEmpty

def install (I : Installer) (run : InstallRun) : Installer × Except Failure Unit :=
  if !I.installGuard then (I, .error .installerException)
  else
    let I := I.unmount devPoint
    match run with
    | .tarNotStarted => (I, .error .osError)
    | .tarFailed => (I.mount devPoint devFs, .ok ())
    | .cleanupRaised => (I.mount devPoint devFs, .error .osError)
    | .completed => ({ I.mount devPoint devFs with installed := true }, .ok ())

def doGrubGuard (I : Installer) : Bool := !I.mounts.isEmpty && I.installed

def doGrub (I : Installer) (rest : Except Failure Unit) : Installer × Except Failure Unit :=
  if !I.doGrubGuard then (I, .error .installerException) else (I, rest)

def setHostnameGuard (I : Installer) : Bool := I.installed

def setHostname (I : Installer) (rest : Except Failure Unit) : Installer × Except Failure Unit :=
  if !I.setHostnameGuard then (I, .error .installerException) else (I, rest)

/-- `setup_from_existing_install`: `tab` is the /etc/fstab copied from the root, if there is one. -/
def setupFromExistingInstall (efiSystem : Bool) (I : Installer) (root : Option Text)
    (answer : Text) (tab : Option (List Text)) : Installer × Except Failure Unit :=
  let I := I.unmountAll
  let d := root.getD (strip pyBlank answer)
  if root = none ∧ d ∉ I.alldevs then (I, .error .installerException)
  else
    let I := (I.mount rootPoint ⟨d, [], none⟩).unmount rootPoint
    match tab with
    | none => (I, .error .installerException)
    | some _ =>
      let I := { I with installed := true }
      match rereadFstab efiSystem tab with
      | .error e => (I, .error e)
      | .ok m => (({ I with mounts := m }).mountAll, .ok ())

/-- A menu choice, with what the world outside the installer answers to it. -/
inductive Op where
  | partition (tab : Option (List Text))
  | install (run : InstallRun)
  | doGrub (rest : Except Failure Unit)
  | setHostname (rest : Except Failure Unit)
  | setupFromExistingInstall (alldevs : List Text) (answer : Text) (tab : Option (List Text))

def perform (efiSystem : Bool) (I : Installer) : Op → Installer × Except Failure Unit
  | .partition tab => I.partition efiSystem tab
  | .install run => I.install run
  | .doGrub rest => I.doGrub rest
  | .setHostname rest => I.setHostname rest
  | .setupFromExistingInstall alldevs answer tab =>
    ({ I with alldevs := alldevs }).setupFromExistingInstall efiSystem none answer tab

/-- The menu loop catches whatever an operation raises and keeps the state it left. -/
def menuStep (efiSystem : Bool) (I : Installer) (op : Op) : Installer :=
  (I.perform efiSystem op).1

def listed (I : Installer) : List (Mount FsInfo) :=
  I.mounts.entries.map (fun e => ⟨point e.1, e.2⟩)

def RootMounted (I : Installer) : Prop :=
  ∃ info, I.mounts.get? rootPoint = some info ∧ ⟨Path.ofText mpref, info⟩ ∈ I.table

@[simp] theorem unmount_mounts (I : Installer) (m : Text) : (I.unmount m).mounts = I.mounts := rfl
@[simp] theorem unmount_installed (I : Installer) (m : Text) :
    (I.unmount m).installed = I.installed := rfl
@[simp] theorem unmount_table (I : Installer) (m : Text) :
    (I.unmount m).table = I.table.umount (point m) := rfl
@[simp] theorem mount_mounts (I : Installer) (m : Text) (info : FsInfo) :
    (I.mount m info).mounts = I.mounts := rfl
@[simp] theorem mount_installed (I : Installer) (m : Text) (info : FsInfo) :
    (I.mount m info).installed = I.installed := rfl
@[simp] theorem mount_alldevs (I : Installer) (m : Text) (info : FsInfo) :
    (I.mount m info).alldevs = I.alldevs := rfl
@[simp] theorem mount_table (I : Installer) (m : Text) (info : FsInfo) :
    (I.mount m info).table = I.table.mount (point m) info := rfl

def points (m : Mounts) : List Path := m.keys.map point ++ smounts.map (fun e => point e.1)

theorem foldl_unmount (I : Installer) (ms : List Text) :
    ms.foldl unmount I = { I with table := I.table.umountAll (ms.map point) } := by
  induction ms generalizing I with
  | nil => rfl
  | cons m ms ih => exact ih (I.unmount m)

theorem unmountAll_of_isEmpty {I : Installer} (h : I.mounts.isEmpty = true) : I.unmountAll = I := by
  simp [unmountAll, h]

def unmountOrder (m : Mounts) : List Path :=
  smounts.map (fun e => point e.1) ++ (sorted m.keys).reverse.map point

theorem unmountAll_eq {I : Installer} (h : I.mounts.isEmpty = false) :
    I.unmountAll = { I with table := I.table.umountAll (unmountOrder I.mounts) } := by
  have hspecial : smounts.foldl (fun I e => I.unmount e.1) I =
      (smounts.map Prod.fst).foldl unmount I := by rw [List.foldl_map]
  simp only [unmountAll, h, Bool.false_eq_true, if_false, hspecial, foldl_unmount]
  simp [MountTable.umountAll, unmountOrder, Function.comp_def]

@[simp] theorem unmountAll_mounts (I : Installer) : I.unmountAll.mounts = I.mounts := by
  cases h : I.mounts.isEmpty with
  | true => rw [unmountAll_of_isEmpty h]
  | false => rw [unmountAll_eq h]

@[simp] theorem unmountAll_installed (I : Installer) : I.unmountAll.installed = I.installed := by
  cases h : I.mounts.isEmpty with
  | true => rw [unmountAll_of_isEmpty h]
  | false => rw [unmountAll_eq h]

@[simp] theorem unmountAll_alldevs (I : Installer) : I.unmountAll.alldevs = I.alldevs := by
  cases h : I.mounts.isEmpty with
  | true => rw [unmountAll_of_isEmpty h]
  | false => rw [unmountAll_eq h]

theorem unmountAll_table {I : Installer} (h : I.mounts.isEmpty = false)
    (hcount : ∀ p, I.table.countAt p ≤ (points I.mounts).count p) : I.unmountAll.table = [] := by
  rw [unmountAll_eq h]
  apply MountTable.umountAll_eq_nil
  intro p
  have hperm : (unmountOrder I.mounts).Perm (points I.mounts) := by
    apply (List.perm_append_comm).trans
    apply List.Perm.append_right
    exact ((List.reverse_perm _).trans (sorted_perm _)).map point
  rw [hperm.count_eq]
  exact hcount p

def mountList (m : Mounts) (ks : List Text) : List (Mount FsInfo) :=
  ks.filterMap (fun k => (m.get? k).map (fun info => ⟨point k, info⟩))

theorem mountKeys_eq (I : Installer) (ks : List Text) :
    I.mountKeys ks = { I with table := I.table.mountAll (mountList I.mounts ks) } := by
  induction ks generalizing I with
  | nil => rfl
  | cons k ks ih =>
    simp only [mountKeys]
    cases hk : I.mounts.get? k with
    | none =>
      rw [ih]
      simp [mountList, hk]
    | some info =>
      dsimp only
      rw [ih]
      simp [mountList, hk, MountTable.mountAll]

def specials : List (Mount FsInfo) := smounts.map (fun e => ⟨point e.1, e.2⟩)

theorem foldl_mount (I : Installer) (ms : List (Text × FsInfo)) :
    ms.foldl (fun I e => I.mount e.1 e.2) I =
      { I with table := I.table.mountAll (ms.map (fun e => ⟨point e.1, e.2⟩)) } := by
  induction ms generalizing I with
  | nil => rfl
  | cons m ms ih => exact ih (I.mount m.1 m.2)

theorem mountAll_eq (I : Installer) : I.mountAll =
    { I with table := (I.table.mountAll (mountList I.mounts (sorted I.mounts.keys))).mountAll specials } := by
  simp only [mountAll, mountKeys_eq, foldl_mount]
  rfl

@[simp] theorem mountAll_mounts (I : Installer) : I.mountAll.mounts = I.mounts := by
  rw [mountAll_eq]

@[simp] theorem mountAll_installed (I : Installer) : I.mountAll.installed = I.installed := by
  rw [mountAll_eq]

theorem mem_mountList {m : Mounts} {ks : List Text} {x : Mount FsInfo} :
    x ∈ mountList m ks ↔ ∃ k ∈ ks, ∃ info, (k, info) ∈ m.entries ∧ x = ⟨point k, info⟩ := by
  simp only [mountList, List.mem_filterMap, Option.map_eq_some_iff, Dict.get?_eq_some]
  simp only [eq_comm]

theorem mem_table_mountAll {I : Installer} {x : Mount FsInfo} (hx : x ∈ I.listed) :
    x ∈ I.mountAll.table := by
  rw [mountAll_eq]
  apply MountTable.mem_mountAll.mpr
  apply Or.inl
  apply MountTable.mem_mountAll.mpr
  obtain ⟨e, he, rfl⟩ := List.mem_map.mp hx
  have hkey : e.1 ∈ sorted I.mounts.keys := Text.mem_sorted.mpr (Dict.mem_keys_of_mem he)
  exact .inr (mem_mountList.mpr ⟨e.1, hkey, e.2, he, rfl⟩)

theorem mountList_points (m : Mounts) (ks : List Text) (hks : ∀ k ∈ ks, k ∈ m.keys) :
    (mountList m ks).map Mount.point = ks.map point := by
  induction ks with
  | nil => rfl
  | cons k ks ih =>
    obtain ⟨info, hinfo⟩ := Dict.mem_keys_iff.mp (hks k (List.mem_cons_self ..))
    have hcons : mountList m (k :: ks) = ⟨point k, info⟩ :: mountList m ks := by
      simp [mountList, Dict.get?_eq_some.mpr hinfo]
    rw [hcons, List.map_cons, List.map_cons, ih (fun k hk => hks k (List.mem_cons_of_mem _ hk))]

theorem countAt_mountAll (I : Installer) (p : Path) : I.mountAll.table.countAt p =
    I.table.countAt p + (points I.mounts).count p := by
  have hlist := mountList_points I.mounts _ (fun k hk => Text.mem_sorted.mp hk)
  have hperm := (sorted_perm I.mounts.keys).map point
  rw [mountAll_eq]
  simp only [MountTable.countAt_mountAll, hlist, hperm.count_eq, points, List.count_append,
    specials, List.map_map, Function.comp_def]
  omega

theorem point_root : point rootPoint = Path.ofText mpref := by decide

theorem point_dev_ne_root : Path.ofText mpref ≠ point devPoint := by decide

theorem rootMounted_mountAll {I : Installer} (h : rootPoint ∈ I.mounts.keys) :
    I.mountAll.RootMounted := by
  obtain ⟨info, hinfo⟩ := Dict.mem_keys_iff.mp h
  refine ⟨info, by simpa using Dict.get?_eq_some.mpr hinfo, ?_⟩
  rw [← point_root]
  exact mem_table_mountAll (List.mem_map.mpr ⟨(rootPoint, info), hinfo, rfl⟩)

end Installer

end CgxLayer

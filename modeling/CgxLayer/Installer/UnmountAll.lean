import CgxLayer.Installer.Menu

namespace CgxLayer.Installer

open Text

/-- What each call of `umount` took off, `none` where it failed. -/
abbrev Log := List (Option (Mount FsInfo))

def unmountLogged (I : Installer) (ms : List Text) : Installer × Log :=
  let called := I.table.umountCalls (ms.map point)
  ({ I with table := called.1 }, called.2)

def unmountAllLogged (I : Installer) : Installer × Log :=
  if I.mounts.isEmpty then (I, [])
  else I.unmountLogged (smounts.map Prod.fst ++ (sorted I.mounts.keys).reverse)

theorem unmountAllLogged_of_succeed {I : Installer} (h : ∀ r ∈ I.unmountAllLogged.2, r ≠ none) :
    I.unmountAllLogged.1 = I.unmountAll := by
  cases he : I.mounts.isEmpty with
  | true =>
    rw [unmountAll_of_isEmpty he]
    simp [unmountAllLogged, he]
  | false =>
    have hlogged : I.unmountAllLogged =
        I.unmountLogged (smounts.map Prod.fst ++ (sorted I.mounts.keys).reverse) := by
      simp [unmountAllLogged, he]
    have horder : (smounts.map Prod.fst ++ (sorted I.mounts.keys).reverse).map point =
        unmountOrder I.mounts := by
      rw [List.map_append, List.map_map]
      rfl
    rw [hlogged, unmountLogged, horder] at h
    rw [hlogged, unmountLogged, horder, unmountAll_eq he]
    dsimp only
    rw [MountTable.umountCalls_eq_umountAll h]

def remountDev (I : Installer) : Installer × Log :=
  let unmounted := I.unmountLogged [devPoint]
  (unmounted.1.mount devPoint devFs, unmounted.2)

def remountDevs : ℕ → Installer → Installer × Log
  | 0, I => (I, [])
  | n + 1, I =>
    let first := I.remountDev
    let rest := remountDevs n first.1
    (rest.1, first.2 ++ rest.2)

def devMount : Mount FsInfo := ⟨point devPoint, devFs⟩

def procMount : Mount FsInfo := ⟨point "/proc".toList, ⟨"none".toList, "proc".toList, none⟩⟩

def sysMount : Mount FsInfo := ⟨point "/sys".toList, ⟨"none".toList, "sysfs".toList, none⟩⟩

theorem umountCall_dev (t : MountTable FsInfo) :
    MountTable.umountCall (sysMount :: procMount :: devMount :: t) (point devPoint) =
      (sysMount :: procMount :: t, some devMount) :=
  MountTable.umountCall_incomparable (l := [sysMount, procMount]) (m := devMount) t (by decide)

theorem umountCall_proc (t : MountTable FsInfo) :
    MountTable.umountCall (sysMount :: procMount :: t) (point "/proc".toList) = (sysMount :: t, some procMount) :=
  MountTable.umountCall_incomparable (l := [sysMount]) (m := procMount) t (by decide)

def SpecialsOn (t : MountTable FsInfo) (I : Installer) : Prop :=
  I.table = sysMount :: procMount :: devMount :: t ∨ I.table = devMount :: sysMount :: procMount :: t

theorem umountCall_dev_specials {t : MountTable FsInfo} {I : Installer} (h : SpecialsOn t I) :
    I.table.umountCall (point devPoint) = (sysMount :: procMount :: t, some devMount) := by
  cases h with
  | inl h =>
    rw [h]
    exact umountCall_dev t
  | inr h =>
    rw [h]
    exact MountTable.umountCall_top _ devMount

theorem remountDev_specials {t : MountTable FsInfo} {I : Installer} (h : SpecialsOn t I) :
    SpecialsOn t I.remountDev.1 ∧ I.remountDev.2 = [some devMount] ∧ I.remountDev.1.mounts = I.mounts := by
  have hcall := umountCall_dev_specials h
  refine ⟨.inr ?_, ?_, rfl⟩
  · simp only [remountDev, unmountLogged, List.map_cons, List.map_nil, MountTable.umountCalls, hcall]
    rfl
  · simp only [remountDev, unmountLogged, List.map_cons, List.map_nil, MountTable.umountCalls, hcall]

theorem remountDevs_specials (n : ℕ) {t : MountTable FsInfo} {I : Installer} (h : SpecialsOn t I) :
    SpecialsOn t (remountDevs n I).1 ∧ (∀ r ∈ (remountDevs n I).2, r ≠ none) ∧
      (remountDevs n I).1.mounts = I.mounts := by
  induction n generalizing I with
  | zero => exact ⟨h, fun r hr => absurd hr List.not_mem_nil, rfl⟩
  | succ n ih =>
    obtain ⟨hfirst, hlog, hmounts⟩ := remountDev_specials h
    obtain ⟨hrest, hlogs, hkeep⟩ := ih hfirst
    refine ⟨hrest, ?_, hkeep.trans hmounts⟩
    simp only [remountDevs, hlog, List.singleton_append, List.forall_mem_cons]
    exact ⟨Option.some_ne_none devMount, hlogs⟩

theorem umountCalls_specials {t : MountTable FsInfo} {I : Installer} (h : SpecialsOn t I) :
    I.table.umountCalls ((smounts.map Prod.fst).map point) = (t, [devMount, procMount, sysMount].map some) := by
  have hpoints : (smounts.map Prod.fst).map point =
    [point devPoint, point "/proc".toList, point "/sys".toList] := rfl
  have hsys : MountTable.umountCall (sysMount :: t) (point "/sys".toList) = (t, some sysMount) :=
    MountTable.umountCall_top t sysMount
  rw [hpoints]
  simp only [MountTable.umountCalls, umountCall_dev_specials h, umountCall_proc, hsys, List.map_cons, List.map_nil]

def keyMounts (m : Mounts) : List (Mount FsInfo) := mountList m (sorted m.keys)

theorem umountCalls_keys (m : Mounts) (t : MountTable FsInfo) :
    MountTable.umountCalls ((keyMounts m).reverse ++ t) ((sorted m.keys).reverse.map point) =
      (t, (keyMounts m).reverse.map some) := by
  have hpoints : (sorted m.keys).reverse.map point = (keyMounts m).reverse.map Mount.point := by
    rw [List.map_reverse, List.map_reverse, keyMounts,
      mountList_points m _ (fun k hk => Text.mem_sorted.mp hk)]
  rw [hpoints]
  exact MountTable.umountCalls_stack t _

theorem mountAll_table (I : Installer) :
    I.mountAll.table = sysMount :: procMount :: devMount :: ((keyMounts I.mounts).reverse ++ I.table) := by
  rw [mountAll_eq]
  dsimp only
  rw [MountTable.mountAll_eq_append, MountTable.mountAll_eq_append]
  rfl

theorem unmountAllLogged_eq {I : Installer} {t : MountTable FsInfo} (hroot : rootPoint ∈ I.mounts.keys)
    (h : SpecialsOn ((keyMounts I.mounts).reverse ++ t) I) : I.unmountAllLogged =
      ({ I with table := t }, (devMount :: procMount :: sysMount :: (keyMounts I.mounts).reverse).map some) := by
  have hne : I.mounts.isEmpty = false := Dict.isEmpty_of_mem_keys hroot
  simp only [unmountAllLogged, hne, Bool.false_eq_true, if_false, unmountLogged, List.map_append,
    MountTable.umountCalls_append, umountCalls_specials h, umountCalls_keys]
  rfl

theorem unmountAll_undoes_mountAll (efiSystem : Bool) (tab : Option (List Text)) (I : Installer)
    (n : ℕ) (hread : rereadFstab efiSystem tab = .ok I.mounts) :
    let installed := remountDevs n I.mountAll
    let unmounted := installed.1.unmountAllLogged
    (∀ r ∈ installed.2 ++ unmounted.2, r ≠ none) ∧
      (∃ made, I.mountAll.table = made ++ I.table ∧ unmounted.2.Perm (made.map some)) ∧
      unmounted.1.table = I.table := by
  intro installed unmounted
  have hstart : SpecialsOn ((keyMounts I.mounts).reverse ++ I.table) I.mountAll := .inl (mountAll_table I)
  obtain ⟨hon, hlog, hmounts⟩ := remountDevs_specials n hstart
  have hkeep : (remountDevs n I.mountAll).1.mounts = I.mounts := hmounts.trans (mountAll_mounts I)
  have hdone := unmountAllLogged_eq (I := (remountDevs n I.mountAll).1) (t := I.table)
    (hkeep ▸ root_mem_keys hread) (hkeep ▸ hon)
  refine ⟨?_, ⟨sysMount :: procMount :: devMount :: (keyMounts I.mounts).reverse, mountAll_table I, ?_⟩, ?_⟩
  · intro r hr
    cases List.mem_append.mp hr with
    | inl hr => exact hlog r hr
    | inr hr =>
      simp only [unmounted, installed, hdone] at hr
      obtain ⟨m, -, rfl⟩ := List.mem_map.mp hr
      exact Option.some_ne_none m
  · simp only [unmounted, installed, hdone, hkeep]
    apply List.Perm.map
    exact (List.reverse_perm [sysMount, procMount, devMount]).append_right _
  · simp only [unmounted, installed, hdone]

def twoFstab : List Text := ["/dev/sda2 / ext3 defaults 0 1".toList, "/dev/sda1 /boot ext3 defaults 0 2".toList]

def twoMounts : Mounts :=
  (Dict.empty.set rootPoint ⟨"/dev/sda2".toList, "ext3".toList, some "defaults".toList⟩).set
    "/boot".toList ⟨"/dev/sda1".toList, "ext3".toList, some "defaults".toList⟩

theorem unmountAll_undoes_two :
    (remountDevs 1 { initial with mounts := twoMounts }.mountAll).1.unmountAllLogged.1.table = [] :=
  (unmountAll_undoes_mountAll false (some twoFstab) { initial with mounts := twoMounts } 1 rfl).2.2

end CgxLayer.Installer

import CgxLayer.Installer.Menu
import CgxLayer.Runs

namespace CgxLayer.Installer

open Text

def GuardLaw (I : Installer) : Prop :=
  (I.installGuard = true → I.RootMounted) ∧ (I.doGrubGuard = true → I.RootMounted) ∧
    (I.setHostnameGuard = true → I.RootMounted)

/-- The steps that leave nothing unmounted behind a guard: an operation that unmounts the target
ends with an fstab it can mount, or had no target to unmount and did not get as far as setting
`installed`. -/
def KeepsRoot (efiSystem : Bool) (I : Installer) : Op → Prop
  | .partition tab => I.mounts.isEmpty = true ∨ Usable efiSystem tab
  | .setupFromExistingInstall alldevs answer tab =>
    strip pyBlank answer ∈ alldevs ∧ Usable efiSystem tab ∨
      I.mounts.isEmpty = true ∧ ¬ (strip pyBlank answer ∈ alldevs ∧ tab ≠ none)
  | .install _ => True
  | .doGrub _ => True
  | .setHostname _ => True

structure Sound (I : Installer) : Prop where
  empty : I.mounts.isEmpty = true → I.installed = false ∧ I.table = []
  root : I.mounts.isEmpty = false → I.RootMounted
  counts : ∀ p, I.table.countAt p ≤ (points I.mounts).count p

theorem sound_initial : Sound initial where
  empty _ := ⟨rfl, rfl⟩
  root h := by simp [initial, Dict.isEmpty, Dict.empty] at h
  counts p := by simp [initial, MountTable.countAt]

theorem Sound.guardLaw {I : Installer} (h : Sound I) : GuardLaw I := by
  have hinstalled : I.installed = true → I.RootMounted := by
    intro hi
    cases he : I.mounts.isEmpty with
    | true => simp [(h.empty he).1] at hi
    | false => exact h.root he
  refine ⟨fun hg => h.root ?_, fun hg => h.root ?_, hinstalled⟩
  · simpa [installGuard] using hg
  · simp only [doGrubGuard, Bool.and_eq_true, Bool.not_eq_true'] at hg
    exact hg.1

theorem Sound.unmountAll_table {I : Installer} (h : Sound I) : I.unmountAll.table = [] := by
  cases he : I.mounts.isEmpty with
  | true => rw [unmountAll_of_isEmpty he, (h.empty he).2]
  | false => exact Installer.unmountAll_table he h.counts

theorem sound_mountAll {I : Installer} (htable : I.table = []) (hroot : rootPoint ∈ I.mounts.keys) :
    Sound I.mountAll where
  empty h := by
    have hnil := (Dict.isEmpty_iff _).mp h
    simp only [mountAll_mounts] at hnil
    simp [Dict.keys, hnil] at hroot
  root _ := rootMounted_mountAll hroot
  counts p := by
    rw [countAt_mountAll, mountAll_mounts, htable]
    simp [MountTable.countAt]

theorem sound_congr {I J : Installer} (hm : J.mounts = I.mounts) (hi : J.installed = I.installed)
    (ht : J.table = I.table) (h : Sound I) : Sound J where
  empty he := by
    rw [hi, ht]
    exact h.empty (hm ▸ he)
  root he := by
    unfold RootMounted
    rw [hm, ht]
    exact h.root (hm ▸ he)
  counts p := by
    rw [hm, ht]
    exact h.counts p

theorem dev_mem_points (m : Mounts) : 0 < (points m).count (point devPoint) := by
  rw [List.count_pos_iff]
  exact List.mem_append_right _ (by simp [smounts])

theorem rootMounted_unmount_dev {I : Installer} (h : I.RootMounted) :
    (I.unmount devPoint).RootMounted := by
  obtain ⟨info, hinfo, hmem⟩ := h
  exact ⟨info, hinfo, (MountTable.mem_umount_of_ne point_dev_ne_root).mpr hmem⟩

theorem rootMounted_mount {I : Installer} (h : I.RootMounted) (m : Text) (x : FsInfo) :
    (I.mount m x).RootMounted := by
  obtain ⟨info, hinfo, hmem⟩ := h
  exact ⟨info, hinfo, MountTable.mem_mount.mpr (.inr hmem)⟩

theorem sound_unmount_dev {I : Installer} (h : Sound I) (he : I.mounts.isEmpty = false) :
    Sound (I.unmount devPoint) where
  empty h' := by simp [he] at h'
  root _ := rootMounted_unmount_dev (h.root he)
  counts p := by
    rw [unmount_table, MountTable.countAt_umount, unmount_mounts]
    have := h.counts p
    omega

theorem sound_remount_dev {I : Installer} (h : Sound I) (he : I.mounts.isEmpty = false) :
    Sound ((I.unmount devPoint).mount devPoint devFs) where
  empty h' := by simp [he] at h'
  root _ := rootMounted_mount (rootMounted_unmount_dev (h.root he)) _ _
  counts p := by
    rw [mount_table, unmount_table, MountTable.countAt_mount, MountTable.countAt_umount,
      mount_mounts, unmount_mounts]
    have hp := h.counts p
    have hdev := dev_mem_points I.mounts
    split_ifs with hq
    · subst hq
      omega
    · omega

theorem sound_installed {I : Installer} (h : Sound I) (he : I.mounts.isEmpty = false) :
    Sound { I with installed := true } where
  empty h' := by simp [he] at h'
  root := h.root
  counts := h.counts

theorem sound_install {I : Installer} (h : Sound I) (run : InstallRun) :
    Sound (I.install run).1 := by
  unfold install
  split_ifs with hg
  · exact h
  · have he : I.mounts.isEmpty = false := by simpa [installGuard] using hg
    cases run with
    | tarNotStarted => exact sound_unmount_dev h he
    | tarFailed => exact sound_remount_dev h he
    | cleanupRaised => exact sound_remount_dev h he
    | completed => exact sound_installed (sound_remount_dev h he) (by simpa using he)

theorem sound_partition {efiSystem : Bool} {I : Installer} (h : Sound I) {tab : Option (List Text)}
    (hok : I.mounts.isEmpty = true ∨ Usable efiSystem tab) :
    Sound (I.partition efiSystem tab).1 := by
  unfold partition
  cases hm : rereadFstab efiSystem tab with
  | ok m => exact sound_mountAll h.unmountAll_table (root_mem_keys hm)
  | error e =>
    rcases hok with he | hu
    · rw [unmountAll_of_isEmpty he]
      exact h
    · obtain ⟨m, hm'⟩ := (rereadFstab_ok_iff efiSystem tab).mpr hu
      simp [hm] at hm'

theorem unmount_mount (I : Installer) (m : Text) (info : FsInfo) :
    (I.mount m info).unmount m = I := by
  simp [mount, unmount]

theorem setup_cases (efiSystem : Bool) (I : Installer) (answer : Text) (tab : Option (List Text)) :
    (¬ (strip pyBlank answer ∈ I.alldevs ∧ tab ≠ none) ∧
      I.setupFromExistingInstall efiSystem none answer tab =
        (I.unmountAll, .error .installerException)) ∨
    (∃ e, strip pyBlank answer ∈ I.alldevs ∧ tab ≠ none ∧ ¬ Usable efiSystem tab ∧
      I.setupFromExistingInstall efiSystem none answer tab =
        ({ I.unmountAll with installed := true }, .error e)) ∨
    ∃ m, strip pyBlank answer ∈ I.alldevs ∧ Usable efiSystem tab ∧
      rereadFstab efiSystem tab = .ok m ∧
      I.setupFromExistingInstall efiSystem none answer tab =
        (({ I.unmountAll with installed := true, mounts := m }).mountAll, .ok ()) := by
  unfold setupFromExistingInstall
  simp only [true_and, Option.getD_none, unmountAll_alldevs, unmount_mount]
  by_cases hd : strip pyBlank answer ∈ I.alldevs
  · cases tab with
    | none => simp [hd]
    | some lines =>
      cases hm : rereadFstab efiSystem (some lines) with
      | error e =>
        have hu : ¬ Usable efiSystem (some lines) := by
          rw [← rereadFstab_ok_iff, hm]
          simp
        exact .inr (.inl ⟨e, hd, by simp, hu, by simp [hd]⟩)
      | ok m =>
        have hu : Usable efiSystem (some lines) := (rereadFstab_ok_iff _ _).mp ⟨m, hm⟩
        exact .inr (.inr ⟨m, hd, hu, rfl, by simp [hd]⟩)
  · simp [hd]

theorem sound_setup {efiSystem : Bool} {I : Installer} (h : Sound I) {answer : Text}
    {tab : Option (List Text)} (hok : strip pyBlank answer ∈ I.alldevs ∧ Usable efiSystem tab ∨
      I.mounts.isEmpty = true ∧ ¬ (strip pyBlank answer ∈ I.alldevs ∧ tab ≠ none)) :
    Sound (I.setupFromExistingInstall efiSystem none answer tab).1 := by
  obtain ⟨hearly, hres⟩ | ⟨e, hd, htab, hbad, hres⟩ | ⟨m, hd, hu, hm, hres⟩ :=
    setup_cases efiSystem I answer tab
  · have he : I.mounts.isEmpty = true := by
      rcases hok with ⟨hd, lines, rfl, -⟩ | ⟨he, -⟩
      · exact absurd ⟨hd, by simp⟩ hearly
      · exact he
    rw [hres, unmountAll_of_isEmpty he]
    exact h
  · rcases hok with ⟨-, hu⟩ | ⟨-, hno⟩
    · exact absurd hu hbad
    · exact absurd ⟨hd, htab⟩ hno
  · rw [hres]
    exact sound_mountAll h.unmountAll_table (root_mem_keys hm)

theorem sound_step {efiSystem : Bool} (I : Installer) (op : Op) (h : Sound I)
    (hok : KeepsRoot efiSystem I op) : Sound (I.menuStep efiSystem op) := by
  cases op with
  | partition tab => exact sound_partition h hok
  | install run => exact sound_install h run
  | doGrub rest =>
    simp only [menuStep, perform, doGrub]
    split_ifs <;> exact h
  | setHostname rest =>
    simp only [menuStep, perform, setHostname]
    split_ifs <;> exact h
  | setupFromExistingInstall alldevs answer tab =>
    have hdevs : Sound { I with alldevs := alldevs } := sound_congr (I := I) rfl rfl rfl h
    exact sound_setup hdevs hok

theorem not_rootMounted_of_table {I : Installer} (h : I.table = []) : ¬ I.RootMounted := by
  rintro ⟨info, -, hmem⟩
  simp [h] at hmem

theorem break_step {efiSystem : Bool} (I : Installer) (op : Op) (h : Sound I)
    (hbad : ¬ KeepsRoot efiSystem I op) : ¬ GuardLaw (I.menuStep efiSystem op) := by
  cases op with
  | partition tab =>
    simp only [KeepsRoot, not_or, Bool.not_eq_true] at hbad
    cases hm : rereadFstab efiSystem tab with
    | ok m => exact absurd ((rereadFstab_ok_iff _ _).mp ⟨m, hm⟩) hbad.2
    | error e =>
      have hres : I.menuStep efiSystem (.partition tab) = I.unmountAll := by
        simp [menuStep, perform, partition, hm]
      rw [hres]
      intro hlaw
      exact not_rootMounted_of_table h.unmountAll_table (hlaw.1 (by simp [installGuard, hbad.1]))
  | install run => exact absurd trivial hbad
  | doGrub rest => exact absurd trivial hbad
  | setHostname rest => exact absurd trivial hbad
  | setupFromExistingInstall alldevs answer tab =>
    have hdevs : Sound { I with alldevs := alldevs } := sound_congr (I := I) rfl rfl rfl h
    simp only [KeepsRoot, not_or] at hbad
    intro hlaw
    simp only [menuStep, perform] at hlaw
    obtain ⟨hearly, hres⟩ | ⟨e, hd, htab, hno, hres⟩ | ⟨m, hd, hu, hm, hres⟩ :=
      setup_cases efiSystem { I with alldevs := alldevs } answer tab
    · have he : I.mounts.isEmpty = false := by
        by_contra hne
        exact hbad.2 ⟨by simpa using hne, hearly⟩
      rw [hres] at hlaw
      exact not_rootMounted_of_table hdevs.unmountAll_table (hlaw.1 (by simp [installGuard, he]))
    · rw [hres] at hlaw
      have hroot := hlaw.2.2 rfl
      exact not_rootMounted_of_table hdevs.unmountAll_table hroot
    · exact hbad.1 ⟨hd, hu⟩

theorem guardLaw_run_iff (efiSystem : Bool) (ops : List Op) :
    (∀ I ∈ Runs.states (menuStep efiSystem) initial ops, GuardLaw I) ↔
      Runs.AllSteps (menuStep efiSystem) (KeepsRoot efiSystem) initial ops :=
  Runs.forall_states_iff (fun _ => Sound.guardLaw) sound_step break_step sound_initial ops

def rootFstab : List Text := ["/dev/sda1 / ext4 defaults 0 1".toList]

theorem repartition_unmounts_root :
    ¬ ∀ I ∈ Runs.states (menuStep false) initial
        [.partition (some rootFstab), .partition (some []), .install .completed], GuardLaw I := by
  intro h
  have hlaw := h _ (List.mem_cons_of_mem _ (List.mem_cons_of_mem _ (List.mem_cons_self ..)))
  have hroot := hlaw.1 (by decide)
  exact not_rootMounted_of_table (by decide) hroot

end CgxLayer.Installer

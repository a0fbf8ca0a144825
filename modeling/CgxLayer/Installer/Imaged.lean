import CgxLayer.Installer.RootMounted

namespace CgxLayer.Installer

open Text

inductive Event where
  | partitioned
  | untarFailed
  | imaged (on : List (Mount FsInfo))
  | adopted (on : List (Mount FsInfo))

def installEvents (I : Installer) : InstallRun → List Event
  | .tarNotStarted => []
  | .tarFailed => [.untarFailed]
  | .cleanupRaised => []
  -- tar writes to what is mounted once /dev has been unmounted around it
  | .completed => [.imaged (I.unmount devPoint).table]

def events (efiSystem : Bool) (I : Installer) : Op → List Event
  | .partition _ => [.partitioned]
  | .install run => if I.installGuard then installEvents I run else []
  | .doGrub _ => []
  | .setHostname _ => []
  | .setupFromExistingInstall alldevs answer tab =>
    match I.perform efiSystem (.setupFromExistingInstall alldevs answer tab) with
    | (J, .ok _) => [.adopted J.listed]
    | (_, .error _) => []

structure Traced where
  installer : Installer
  history : List Event

def tracedInitial : Traced := ⟨initial, []⟩

def tracedStep (efiSystem : Bool) (T : Traced) (op : Op) : Traced :=
  ⟨T.installer.menuStep efiSystem op, events efiSystem T.installer op ++ T.history⟩

/-- The file system was imaged or adopted, and neither partitioned nor spoilt by a failed untar
since. -/
def Imaged (m : Mount FsInfo) : List Event → Prop
  | [] => False
  | .partitioned :: _ => False
  | .untarFailed :: _ => False
  | .imaged on :: history => m ∈ on ∨ Imaged m history
  | .adopted on :: history => m ∈ on ∨ Imaged m history

def InstalledLaw (T : Traced) : Prop :=
  T.installer.installed = true → ∀ m ∈ T.installer.listed, Imaged m T.history

def KeepsImage (efiSystem : Bool) (T : Traced) : Op → Prop
  | .partition tab =>
    T.installer.installed = false ∨ T.installer.mounts.isEmpty = true ∧ ¬ Usable efiSystem tab
  | .install .tarFailed => T.installer.mounts.isEmpty = true ∨ T.installer.installed = false
  | .install .completed =>
    T.installer.mounts.isEmpty = true ∨ T.installer.installed = true ∨
      ∀ m ∈ T.installer.listed, m ∈ (T.installer.unmount devPoint).table
  | .install .tarNotStarted => True
  | .install .cleanupRaised => True
  | .doGrub _ => True
  | .setHostname _ => True
  | .setupFromExistingInstall alldevs answer tab =>
    T.installer.mounts.isEmpty = true ∨ T.installer.installed = true ∨
      ¬ (strip pyBlank answer ∈ alldevs ∧ tab ≠ none) ∨ Usable efiSystem tab

structure Honest (T : Traced) : Prop where
  law : InstalledLaw T
  fresh : T.installer.installed = false → ∀ m, ¬ Imaged m T.history

theorem honest_initial : Honest tracedInitial where
  law h := by simp [tracedInitial, initial] at h
  fresh _ _ := not_false

theorem exists_listed {I : Installer} (h : I.mounts.isEmpty = false) : ∃ m, m ∈ I.listed := by
  obtain ⟨e, es, he⟩ := List.exists_cons_of_ne_nil (l := I.mounts.entries) (by
    rw [ne_eq, ← Dict.isEmpty_iff]
    simp [h])
  exact ⟨⟨point e.1, e.2⟩, by simp [listed, he]⟩

theorem listed_of_isEmpty {I : Installer} (h : I.mounts.isEmpty = true) : I.listed = [] := by
  simp [listed, (Dict.isEmpty_iff _).mp h]

@[simp] theorem listed_unmountAll (I : Installer) : I.unmountAll.listed = I.listed := by
  simp [listed]

theorem partition_installed (efiSystem : Bool) (I : Installer) (tab : Option (List Text)) :
    (I.partition efiSystem tab).1.installed = I.installed := by
  unfold partition
  split <;> simp

theorem partition_isEmpty {efiSystem : Bool} {I : Installer} {tab : Option (List Text)} :
    (I.partition efiSystem tab).1.mounts.isEmpty = true ↔
      I.mounts.isEmpty = true ∧ ¬ Usable efiSystem tab := by
  unfold partition
  rw [← rereadFstab_ok_iff]
  cases hm : rereadFstab efiSystem tab with
  | error e => simp
  | ok m =>
    have hne : m.isEmpty = false := Dict.isEmpty_of_mem_keys (root_mem_keys hm)
    simp [hne]

theorem partition_law_iff {efiSystem : Bool} {T : Traced} {tab : Option (List Text)} :
    InstalledLaw (tracedStep efiSystem T (.partition tab)) ↔
      KeepsImage efiSystem T (.partition tab) := by
  simp only [InstalledLaw, tracedStep, menuStep, perform, events, List.singleton_append, Imaged,
    partition_installed, KeepsImage, ← partition_isEmpty]
  cases hi : T.installer.installed with
  | false => simp
  | true =>
    simp only [forall_const, Bool.true_eq_false, false_or]
    constructor
    · intro h
      by_contra hne
      obtain ⟨m, hm⟩ := exists_listed (by simpa using hne)
      exact h m hm
    · intro he m hm
      simp [listed_of_isEmpty he] at hm

theorem install_mounts (I : Installer) (run : InstallRun) : (I.install run).1.mounts = I.mounts := by
  unfold install
  split_ifs
  · rfl
  · cases run <;> rfl

theorem install_listed (I : Installer) (run : InstallRun) : (I.install run).1.listed = I.listed := by
  simp [listed, install_mounts]

theorem install_installed (I : Installer) (run : InstallRun) : (I.install run).1.installed =
    (I.installed || I.installGuard && decide (run = .completed)) := by
  unfold install
  cases hg : I.installGuard with
  | false => simp
  | true => cases run <;> simp

theorem install_law_iff {efiSystem : Bool} {T : Traced} {run : InstallRun} (h : Honest T) :
    InstalledLaw (tracedStep efiSystem T (.install run)) ↔
      KeepsImage efiSystem T (.install run) := by
  have hlaw : T.installer.installed = true → ∀ m ∈ T.installer.listed, Imaged m T.history := h.law
  have hfresh := h.fresh
  simp only [InstalledLaw, tracedStep, menuStep, perform, install_installed, install_listed, events]
  cases he : T.installer.mounts.isEmpty with
  | true =>
    have hnil := listed_of_isEmpty he
    cases run <;> simp [hnil, KeepsImage, he]
  | false =>
    have hg : T.installer.installGuard = true := by simp [installGuard, he]
    obtain ⟨m, hm⟩ := exists_listed he
    cases run with
    | tarNotStarted => simpa [installEvents, hg, KeepsImage] using hlaw
    | tarFailed =>
      cases hi : T.installer.installed with
      | true => simpa [installEvents, hg, KeepsImage, he, hi, Imaged] using ⟨m, hm⟩
      | false => simp [KeepsImage, hi]
    | cleanupRaised => simpa [installEvents, hg, KeepsImage] using hlaw
    | completed =>
      cases hi : T.installer.installed with
      | true => simpa [installEvents, hg, KeepsImage, hi, Imaged] using fun m hm => .inr (hlaw hi m hm)
      | false => simp [installEvents, hg, KeepsImage, he, hi, Imaged, hfresh hi]

theorem setup_law_iff {efiSystem : Bool} {T : Traced} {alldevs : List Text} {answer : Text}
    {tab : Option (List Text)} (h : Honest T) :
    InstalledLaw (tracedStep efiSystem T (.setupFromExistingInstall alldevs answer tab)) ↔
      KeepsImage efiSystem T (.setupFromExistingInstall alldevs answer tab) := by
  have hlaw : T.installer.installed = true → ∀ m ∈ T.installer.listed, Imaged m T.history := h.law
  have hlisted : ({ T.installer with alldevs := alldevs } : Installer).listed = T.installer.listed :=
    rfl
  have hfresh := h.fresh
  simp only [InstalledLaw, tracedStep, menuStep, events, perform, KeepsImage]
  obtain ⟨hearly, hres⟩ | ⟨e, hd, htab, hbad, hres⟩ | ⟨m, hd, hu, hm, hres⟩ :=
    setup_cases efiSystem { T.installer with alldevs := alldevs } answer tab
  · simp only [hres, List.nil_append, hearly, not_false_eq_true, true_or, or_true, iff_true]
    simpa [hlisted] using hlaw
  · simp only [hres, List.nil_append, forall_const, hbad, hd, htab, ne_eq, not_false_eq_true,
      and_self, not_true_eq_false, or_false]
    cases he : T.installer.mounts.isEmpty with
    | true => simp [listed, (Dict.isEmpty_iff _).mp he]
    | false =>
      obtain ⟨m, hm⟩ := exists_listed he
      simp only [Bool.false_eq_true, false_or]
      constructor
      · intro hall
        by_contra hi
        exact hfresh (by simpa using hi) m (hall m (by simpa [listed] using hm))
      · intro hi m hm
        exact hlaw hi m (by simpa [listed] using hm)
  · simp only [hres, List.singleton_append, Imaged, hu, or_true, iff_true]
    exact fun _ m hm => .inl hm

theorem law_iff {efiSystem : Bool} (T : Traced) (op : Op) (h : Honest T) :
    InstalledLaw (tracedStep efiSystem T op) ↔ KeepsImage efiSystem T op := by
  cases op with
  | partition tab => exact partition_law_iff
  | install run => exact install_law_iff h
  | doGrub rest =>
    have hstep : tracedStep efiSystem T (.doGrub rest) = T := by
      simp only [tracedStep, menuStep, perform, doGrub, events]
      split_ifs <;> rfl
    simp [hstep, KeepsImage, h.law]
  | setHostname rest =>
    have hstep : tracedStep efiSystem T (.setHostname rest) = T := by
      simp only [tracedStep, menuStep, perform, setHostname, events]
      split_ifs <;> rfl
    simp [hstep, KeepsImage, h.law]
  | setupFromExistingInstall alldevs answer tab => exact setup_law_iff h

theorem fresh_step {efiSystem : Bool} (T : Traced) (op : Op) (h : Honest T)
    (hi : (tracedStep efiSystem T op).installer.installed = false) (m : Mount FsInfo) :
    ¬ Imaged m (tracedStep efiSystem T op).history := by
  cases op with
  | partition tab => simp [tracedStep, events, Imaged]
  | install run =>
    simp only [tracedStep, menuStep, perform, install_installed, Bool.or_eq_false_iff,
      Bool.and_eq_false_iff] at hi
    have hold := h.fresh hi.1 m
    simp only [tracedStep, events]
    cases hg : T.installer.installGuard with
    | false => simpa using hold
    | true =>
      cases run with
      | tarNotStarted => simpa [installEvents] using hold
      | tarFailed => simp [installEvents, Imaged]
      | cleanupRaised => simpa [installEvents] using hold
      | completed => simp [hg] at hi
  | doGrub rest =>
    apply h.fresh
    simp only [tracedStep, menuStep, perform, doGrub] at hi
    split_ifs at hi <;> exact hi
  | setHostname rest =>
    apply h.fresh
    simp only [tracedStep, menuStep, perform, setHostname] at hi
    split_ifs at hi <;> exact hi
  | setupFromExistingInstall alldevs answer tab =>
    simp only [tracedStep, menuStep, perform, events] at hi ⊢
    obtain ⟨hearly, hres⟩ | ⟨e, hd, htab, hbad, hres⟩ | ⟨m', hd, hu, hm, hres⟩ :=
      setup_cases efiSystem { T.installer with alldevs := alldevs } answer tab
    · rw [hres] at hi ⊢
      exact h.fresh (by simpa using hi) m
    · simp [hres] at hi
    · simp [hres] at hi

theorem honest_step {efiSystem : Bool} (T : Traced) (op : Op) (h : Honest T)
    (hok : KeepsImage efiSystem T op) : Honest (tracedStep efiSystem T op) where
  law := (law_iff T op h).mpr hok
  fresh hi m := fresh_step T op h hi m

theorem installedLaw_run_iff (efiSystem : Bool) (ops : List Op) :
    (∀ T ∈ Runs.states (tracedStep efiSystem) tracedInitial ops, InstalledLaw T) ↔
      Runs.AllSteps (tracedStep efiSystem) (KeepsImage efiSystem) tracedInitial ops :=
  Runs.forall_states_iff (fun _ h => h.law) honest_step
    (fun T op h hbad hlaw => hbad ((law_iff T op h).mp hlaw)) honest_initial ops

theorem repartition_keeps_installed :
    ¬ ∀ T ∈ Runs.states (tracedStep false) tracedInitial
        [.partition (some rootFstab), .install .completed, .partition (some rootFstab)],
      InstalledLaw T := by
  intro h
  have hlaw := h _ (Runs.foldl_mem_states _ _)
  have himaged := hlaw (by decide)
    ⟨["t".toList], ⟨"/dev/sda1".toList, "ext4".toList, some "defaults".toList⟩⟩ (by decide)
  exact himaged

end CgxLayer.Installer

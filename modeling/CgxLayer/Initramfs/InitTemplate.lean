import CgxLayer.Initramfs.Cmdline

namespace CgxLayer.Initramfs

open Text Shell

structure NewRoot where
  executable : Text → Bool
  symlink : Text → Bool
  dir : Text → Bool

/-- What `init_template` finds: which mounts succeed, by how many were tried before, and the new root. -/
structure InitWorld where
  shell : World
  cmdline : Text
  mounts : ℕ → List Text → Bool
  newRoot : NewRoot

inductive Outcome where
  | shell
  | switchRoot (init : Text)
deriving DecidableEq

-- `mount -o ${ro} "${root}" /new-root`
def mountRoot (ro root : Text) : List Text :=
  ["mount".toList, "-o".toList] ++ (words shBlank ro ++ [root, "/new-root".toList])

def waitRoot (mounts : ℕ → Bool) (tried : ℕ) (timeout : ℤ) : Bool :=
  if mounts tried then true
  else if timeout < 0 then false
  else waitRoot mounts (tried + 1) (timeout - 5)
termination_by (timeout + 5).toNat
decreasing_by omega

def defaultInits : List Text := ["/sbin/init".toList, "/etc/init".toList, "/bin/init".toList, "/bin/sh".toList]

def chooseInit (n : NewRoot) (init : Text) : Option Text :=
  if init = [] then defaultInits.find? (fun i => n.executable i || n.symlink i)
  else if n.executable init = false then none
  else if n.dir init then none
  else some init

def initTemplate (w : InitWorld) : Outcome :=
  let a := templateArgs (cmdlineWords w.shell w.cmdline)
  if a.root = [] then .shell
  else if waitRoot (fun tried => w.mounts tried (mountRoot a.ro a.root)) 0 (600 / 5) = false then .shell
  else
    match chooseInit w.newRoot a.init with
    | none => .shell
    | some init => .switchRoot init

theorem waitRoot_iff (mounts : ℕ → Bool) (left tried : ℕ) :
    waitRoot mounts tried (5 * left - 5) = true ↔ ∃ t, tried ≤ t ∧ t ≤ tried + left ∧ mounts t = true := by
  induction left generalizing tried with
  | zero =>
    rw [waitRoot]
    split_ifs with h htimeout
    · exact ⟨fun _ => ⟨tried, le_rfl, le_rfl, h⟩, fun _ => rfl⟩
    · refine ⟨fun hfalse => (by cases hfalse), fun ⟨t, hle, hle', ht⟩ => ?_⟩
      obtain rfl : t = tried := by omega
      exact absurd ht h
    · omega
  | succ left ih =>
    have hnext : (5 * ((left + 1 : ℕ) : ℤ) - 5) - 5 = 5 * left - 5 := by
      push_cast
      omega
    rw [waitRoot]
    split_ifs with h htimeout
    · exact ⟨fun _ => ⟨tried, le_rfl, by omega, h⟩, fun _ => rfl⟩
    · omega
    · rw [hnext, ih]
      constructor
      · rintro ⟨t, hle, hle', ht⟩
        exact ⟨t, by omega, by omega, ht⟩
      · rintro ⟨t, hle, hle', ht⟩
        have hne : t ≠ tried := fun heq => h (heq ▸ ht)
        exact ⟨t, by omega, by omega, ht⟩

theorem waitRoot_tries (mounts : ℕ → Bool) : waitRoot mounts 0 (600 / 5) = true ↔ ∃ t < 26, mounts t = true := by
  have hstart : (600 / 5 : ℤ) = 5 * (25 : ℕ) - 5 := by decide
  rw [hstart, waitRoot_iff]
  apply exists_congr
  intro t
  constructor
  · exact fun h => ⟨by omega, h.2.2⟩
  · exact fun h => ⟨by omega, by omega, h.2⟩

def Chosen (n : NewRoot) (asked : Option Text) (init : Text) : Prop :=
  (asked = some init ∧ init ≠ [] ∧ n.executable init = true ∧ n.dir init = false) ∨
    ((asked = none ∨ asked = some []) ∧
      defaultInits.find? (fun i => n.executable i || n.symlink i) = some init)

theorem chooseInit_asked {n : NewRoot} {i init : Text} (hi : i ≠ []) :
    chooseInit n i = some init ↔ i = init ∧ n.executable init = true ∧ n.dir init = false := by
  rw [chooseInit, if_neg hi]
  split_ifs with hexec hdir
  · refine ⟨fun h => (by cases h), ?_⟩
    rintro ⟨rfl, hexec', -⟩
    rw [hexec] at hexec'
    cases hexec'
  · refine ⟨fun h => (by cases h), ?_⟩
    rintro ⟨rfl, -, hdir'⟩
    rw [hdir] at hdir'
    cases hdir'
  · rw [Option.some_inj]
    constructor
    · rintro rfl
      exact ⟨rfl, Bool.eq_true_of_not_eq_false hexec, Bool.eq_false_of_not_eq_true hdir⟩
    · exact And.left

theorem chooseInit_iff (n : NewRoot) (asked : Option Text) (init : Text) :
    chooseInit n (asked.getD []) = some init ↔ Chosen n asked init := by
  by_cases hasked : asked.getD [] = []
  · have hnone : asked = none ∨ asked = some [] := by
      cases asked with
      | none => exact .inl rfl
      | some i => exact .inr (congrArg some hasked)
    rw [chooseInit, if_pos hasked]
    constructor
    · exact fun h => .inr ⟨hnone, h⟩
    · rintro (⟨rfl, hne, -⟩ | ⟨-, h⟩)
      · exact absurd hasked hne
      · exact h
  · obtain ⟨i, rfl⟩ : ∃ i, asked = some i := by
      cases asked with
      | none => exact absurd rfl hasked
      | some i => exact ⟨i, rfl⟩
    have hi : i ≠ [] := hasked
    rw [Option.getD_some, chooseInit_asked hi]
    constructor
    · rintro ⟨rfl, hexec, hdir⟩
      exact .inl ⟨rfl, hi, hexec, hdir⟩
    · rintro (⟨hsome, -, hexec, hdir⟩ | ⟨hnone | hempty, -⟩)
      · exact ⟨Option.some.inj hsome, hexec, hdir⟩
      · cases hnone
      · exact absurd (Option.some.inj hempty) hi

theorem init_switches_iff (w : InitWorld) (init : Text) :
    let ws := cmdlineWords w.shell w.cmdline
    initTemplate w = .switchRoot init ↔ ∃ root, lastValue rootKey ws = some root ∧ root ≠ [] ∧
      (∃ t < 26, w.mounts t (mountRoot ((lastOf mode ws).getD []) root) = true) ∧
      Chosen w.newRoot (lastValue initKey ws) init := by
  intro ws
  rw [initTemplate, templateArgs_eq]
  dsimp only
  cases hroot : lastValue rootKey ws with
  | none =>
    rw [Option.getD_none, if_pos rfl]
    exact ⟨fun h => (by cases h), fun ⟨root, h, _⟩ => (by cases h)⟩
  | some root =>
    rw [Option.getD_some]
    split_ifs with hempty hwait
    · refine ⟨fun h => (by cases h), ?_⟩
      rintro ⟨root', hsome, hne, -⟩
      exact absurd ((Option.some.inj hsome).symm.trans hempty) hne
    · refine ⟨fun h => (by cases h), ?_⟩
      rintro ⟨root', hsome, -, hmounts, -⟩
      obtain rfl := Option.some.inj hsome
      rw [(waitRoot_tries _).mpr hmounts] at hwait
      cases hwait
    · have hmounts := (waitRoot_tries _).mp (Bool.eq_true_of_not_eq_false hwait)
      have hchosen := chooseInit_iff w.newRoot (lastValue initKey ws) init
      constructor
      · intro h
        refine ⟨root, rfl, hempty, hmounts, hchosen.mp ?_⟩
        cases hchoose : chooseInit w.newRoot ((lastValue initKey ws).getD []) with
        | none =>
          rw [hchoose] at h
          cases h
        | some i =>
          rw [hchoose] at h
          cases h
          rfl
      · rintro ⟨root', hsome, -, -, hinit⟩
        rw [hchosen.mpr hinit]

end CgxLayer.Initramfs

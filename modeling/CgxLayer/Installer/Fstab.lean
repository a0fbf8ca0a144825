import CgxLayer.Dict
import CgxLayer.Text

namespace CgxLayer.Installer

open Text

structure FsInfo where
  dev : Text
  type : Text
  opts : Option Text
deriving DecidableEq

inductive Failure where
  | installerException
  | indexError
  | valueError
  | recursionError
  | osError
deriving DecidableEq

abbrev Mounts := Dict Text FsInfo

def ignoreFsTypes : List Text :=
  ["proc".toList, "tmpfs".toList, "devpts".toList, "usbfs".toList, "auto".toList, "swap".toList]

def rootPoint : Text := "/".toList

def efiPoint : Text := "/boot/efi".toList

def fstabEntry (l : Text) : Except Failure (Option (Text × FsInfo)) :=
  match strip pyBlank l with
  | [] => .ok none
  | c :: l =>
    if c = '#' then .ok none
    else
      match words pyBlank (c :: l) with
      | dev :: mountPoint :: type :: w =>
        if type ∈ ignoreFsTypes then .ok none
        else
          match w with
          | [] => .error .indexError
          | opts :: _ => .ok (some (mountPoint, ⟨dev, type, some opts⟩))
      | _ => .error .indexError

def addLine (m : Mounts) (l : Text) : Except Failure Mounts :=
  match fstabEntry l with
  | .error e => .error e
  | .ok none => .ok m
  | .ok (some e) => .ok (m.set e.1 e.2)

def readLines (m : Mounts) : List Text → Except Failure Mounts
  | [] => .ok m
  | l :: ls =>
    match addLine m l with
    | .error e => .error e
    | .ok m => readLines m ls

/-- `reread_fstab`, giving the new `mounts`; there may be no file to open. -/
def rereadFstab (efiSystem : Bool) (tab : Option (List Text)) : Except Failure Mounts :=
  match tab with
  | none => .error .osError
  | some lines =>
    match readLines Dict.empty lines with
    | .error e => .error e
    | .ok m =>
      if rootPoint ∉ m.keys then .error .installerException
      else if efiSystem = true ∧ efiPoint ∉ m.keys then .error .installerException
      else .ok m

def Lists (lines : List Text) (mountPoint : Text) : Prop :=
  ∃ l ∈ lines, ∃ info, fstabEntry l = .ok (some (mountPoint, info))

/-- An fstab the installer accepts: all lines can be read and `/` (on EFI also `/boot/efi`) has a
line of a type that is not ignored. -/
def Usable (efiSystem : Bool) (tab : Option (List Text)) : Prop :=
  ∃ lines, tab = some lines ∧ (∀ l ∈ lines, ∃ e, fstabEntry l = .ok e) ∧ Lists lines rootPoint ∧
    (efiSystem = true → Lists lines efiPoint)

theorem readLines_ok_iff (lines : List Text) (m : Mounts) :
    (∃ m', readLines m lines = .ok m') ↔ ∀ l ∈ lines, ∃ e, fstabEntry l = .ok e := by
  induction lines generalizing m with
  | nil => simp [readLines]
  | cons l ls ih =>
    simp only [readLines, addLine, List.forall_mem_cons]
    match hl : fstabEntry l with
    | .error e => simp
    | .ok none => simpa using ih m
    | .ok (some e) => simpa using ih (m.set e.1 e.2)

theorem mem_keys_readLines {lines : List Text} {m m' : Mounts} (h : readLines m lines = .ok m')
    (k : Text) : k ∈ m'.keys ↔ k ∈ m.keys ∨ Lists lines k := by
  induction lines generalizing m with
  | nil =>
    simp only [readLines, Except.ok.injEq] at h
    simp [← h, Lists]
  | cons l ls ih =>
    have hcons : Lists (l :: ls) k ↔ (∃ info, fstabEntry l = .ok (some (k, info))) ∨ Lists ls k := by
      simp [Lists]
    rw [hcons]
    simp only [readLines, addLine] at h
    match hl : fstabEntry l, h with
    | .ok none, h => simpa using ih h
    | .ok (some e), h =>
      have hentry : (∃ info, Except.ok (some e) = Except.ok (ε := Failure) (some (k, info))) ↔
          k = e.1 := by
        constructor
        · rintro ⟨info, h⟩
          simp only [Except.ok.injEq, Option.some.injEq] at h
          rw [h]
        · rintro rfl
          exact ⟨e.2, rfl⟩
      rw [ih h, Dict.mem_keys_set, hentry]
      tauto

theorem rereadFstab_ok_iff (efiSystem : Bool) (tab : Option (List Text)) :
    (∃ m, rereadFstab efiSystem tab = .ok m) ↔ Usable efiSystem tab := by
  match tab with
  | none => simp [rereadFstab, Usable]
  | some lines =>
    have hread := readLines_ok_iff lines Dict.empty
    simp only [Usable, Option.some.injEq, exists_eq_left', ← hread, rereadFstab]
    match hm : readLines Dict.empty lines with
    | .error e => simp
    | .ok m =>
      have hkeys (k : Text) : k ∈ m.keys ↔ Lists lines k := by
        rw [mem_keys_readLines hm]
        simp [Dict.keys, Dict.empty]
      simp only [← hkeys]
      by_cases hroot : rootPoint ∈ m.keys
      · by_cases hefi : efiSystem = true ∧ efiPoint ∉ m.keys
        · simp [hroot, hefi]
        · have hboth : efiSystem = true → efiPoint ∈ m.keys := fun h => by
            by_contra hno
            exact hefi ⟨h, hno⟩
          simpa [hroot, hefi] using hboth
      · simp [hroot]

theorem root_mem_keys {efiSystem : Bool} {tab : Option (List Text)} {m : Mounts}
    (h : rereadFstab efiSystem tab = .ok m) : rootPoint ∈ m.keys := by
  unfold rereadFstab at h
  split at h
  · cases h
  · split at h
    · cases h
    · split_ifs at h with hroot
      · cases h
        exact hroot

theorem readLines_of_rereadFstab {efiSystem : Bool} {lines : List Text} {m : Mounts}
    (h : rereadFstab efiSystem (some lines) = .ok m) : readLines Dict.empty lines = .ok m := by
  unfold rereadFstab at h
  dsimp only at h
  cases hm : readLines Dict.empty lines with
  | error e =>
    rw [hm] at h
    cases h
  | ok m' =>
    rw [hm] at h
    dsimp only at h
    split_ifs at h
    exact h

end CgxLayer.Installer

import CgxLayer.Package.FilePerms
import Mathlib.Data.Nat.Digits.Defs

namespace CgxLayer.Package

open Text

variable {base n : ℕ}

theorem digit_of_mem_toDigits (hb : 1 < base) (hb' : base ≤ 10) {c : Char} (hc : c ∈ Nat.toDigits base n) :
    48 ≤ c.toNat ∧ c.toNat < 48 + base := by
  induction n using Nat.strong_induction_on with
  | _ n ih =>
    rw [Nat.toDigits_eq_if hb] at hc
    have hlast {d : ℕ} (hd : d < base) (hcd : c = d.digitChar) : 48 ≤ c.toNat ∧ c.toNat < 48 + base := by
      have hval := Nat.toNat_digitChar_of_lt_ten (n := d) (by omega)
      rw [hcd, hval]
      omega
    split_ifs at hc with hlt
    · exact hlast hlt (List.mem_singleton.mp hc)
    · rcases List.mem_append.mp hc with hc | hc
      · exact ih (n / base) (Nat.div_lt_self (by omega) hb) hc
      · exact hlast (Nat.mod_lt n (by omega)) (List.mem_singleton.mp hc)

theorem not_mem_toDigits (hb : 1 < base) (hb' : base ≤ 10) {c : Char} (hc : c.toNat < 48 ∨ 58 ≤ c.toNat) :
    c ∉ Nat.toDigits base n := by
  intro hmem
  have hdigit := digit_of_mem_toDigits hb hb' hmem
  omega

theorem intDigits_toDigits (hb : 1 < base) (hb' : base ≤ 10) : intDigits base (Nat.toDigits base n) = some n := by
  have hsplit : (Nat.toDigits base n).splitOn '_' = [Nat.toDigits base n] :=
    List.splitOn_eq_singleton (not_mem_toDigits hb hb' (by decide))
  have hfilter : (Nat.toDigits base n).filter (· != '_') = Nat.toDigits base n := by
    rw [List.filter_eq_self]
    intro c hc
    rw [bne_iff_ne]
    rintro rfl
    exact not_mem_toDigits hb hb' (by decide) hc
  have hall : (Nat.toDigits base n).all (fun c => 48 ≤ c.toNat && c.toNat < 48 + base) = true := by
    rw [List.all_eq_true]
    intro c hc
    simpa using digit_of_mem_toDigits hb hb' hc
  have hne : (Nat.toDigits base n).isEmpty = false := by
    rw [List.isEmpty_eq_false_iff]
    exact Nat.toDigits_ne_nil
  rw [intDigits, hsplit, hfilter, Nat.ofDigitChars_toDigits hb hb']
  simp [hall, hne]

theorem strip_of_no_blank {s : Text} (h : ∀ c ∈ s, pyBlank c = false) : strip pyBlank s = s := by
  rcases eq_or_ne s [] with rfl | hne
  · rfl
  · have hbetween := @strip_between pyBlank [] s [] (by simp) (by simp) hne
      (fun c hc => h c (List.mem_of_mem_head? hc)) (fun c hc => h c (List.mem_of_mem_getLast? hc))
    rwa [List.nil_append, List.append_nil] at hbetween

theorem int_toDigits (hb : 1 < base) (hb' : base ≤ 10) : int base (Nat.toDigits base n) = some (n : ℤ) := by
  have hstrip : strip pyBlank (Nat.toDigits base n) = Nat.toDigits base n := by
    apply strip_of_no_blank
    intro c hc
    have hdigit := digit_of_mem_toDigits hb hb' hc
    exact pyBlank_of_printable (by omega) (by omega)
  have hunsigned : unsignedInt base (Nat.toDigits base n) = some n := by
    have hprefix : ∀ c, 58 ≤ c.toNat → startsWith ['0', c] (Nat.toDigits base n) = false := by
      intro c hc
      rw [Bool.eq_false_iff, ne_eq, startsWith_iff]
      intro hpre
      exact not_mem_toDigits hb hb' (.inr hc) (hpre.subset (by simp))
    rw [unsignedInt, hprefix 'o' (by decide), hprefix 'O' (by decide)]
    simpa using intDigits_toDigits hb hb'
  have hsign : ∀ c s, Nat.toDigits base n = c :: s → c ≠ '-' ∧ c ≠ '+' := by
    intro c s hcons
    have hdigit := digit_of_mem_toDigits hb hb' (hcons ▸ List.mem_cons_self ..)
    constructor <;> rintro rfl <;> revert hdigit <;> simp
  rw [int, hstrip]
  split
  · next s hcons => exact absurd rfl (hsign _ _ hcons).1
  · next s hcons => exact absurd rfl (hsign _ _ hcons).2
  · rw [hunsigned]
    rfl

namespace Pkg

theorem ownerId_self (old u : Id) : ownerId old (u : ℕ) = some u := by
  have hlt := u.isLt
  rw [ownerId, if_neg (by omega), dif_pos (by omega)]
  simp only [Int.toNat_natCast, Fin.eta]

@[simp]
theorem ofInt_toNat (m : BitVec 12) : BitVec.ofInt 12 m.toNat = m := by
  rw [BitVec.ofInt_natCast, BitVec.ofNat_toNat, BitVec.setWidth_eq]

variable (w : Pkg)

theorem fixMode_toNat (r : Text) (m : BitVec 12) (τ : Attrs) :
    fixMode r m.toNat τ = some (Function.update τ r { τ r with mode := m }) := by
  have hlt := m.isLt
  rw [fixMode]
  split_ifs with hne
  · rw [chmod, if_pos (by omega), ofInt_toNat]
  · have hmode : (τ r).mode = m := BitVec.eq_of_toNat_eq (by omega)
    rw [← hmode, Function.update_eq_self]

def settled (r : Text) (m : BitVec 12) : BitVec 12 := if w.isDir r then m else keptBits m

theorem chown_id (r : Text) (u g : Id) (τ : Attrs) :
    w.chown r (u : ℕ) (g : ℕ) τ = some (Function.update τ r ⟨w.settled r (τ r).mode, u, g⟩) := by
  rw [chown, ownerId_self, Option.bind_eq_bind, Option.bind_some, ownerId_self, Option.bind_some]
  rfl

theorem chown_root (r : Text) (τ : Attrs) :
    w.chown r 0 0 τ = some (Function.update τ r ⟨w.settled r (τ r).mode, root, root⟩) :=
  w.chown_id r root root τ

def debugged (tfile : Text) (τ : Attrs) : Attrs :=
  match w.stat (dtfile tfile) with
  | some d => Function.update τ d ⟨w.settled d (τ d).mode, root, root⟩
  | none => τ

theorem fixDebug_eq (tfile : Text) (τ : Attrs) : w.fixDebug tfile τ = some (w.debugged tfile τ) := by
  rw [fixDebug, debugged]
  cases w.stat (dtfile tfile) with
  | none => rfl
  | some d => exact w.chown_root d τ

theorem int_decimal (n : ℕ) : int 10 (decimal n) = some (n : ℤ) := int_toDigits (by decide) (by decide)

theorem fixOwner_decimal (r : Text) (old : Attr) (τ : Attrs) (hmode : (τ r).mode = old.mode) :
    w.fixOwner r (decimal old.uid) (decimal old.gid) τ =
      some (Function.update τ r { w.wanted old (τ r) with mode := w.settled r old.mode }) := by
  have hcur : (((τ r).uid : ℕ) : ℤ) = (w.hostUserUid : ℕ) ↔ (τ r).uid = w.hostUserUid := by
    rw [Int.natCast_inj, Fin.val_inj]
  have huser : decimal old.uid = decimal w.hostUserUid ↔ old.uid = w.hostUserUid := by
    rw [← Fin.val_inj]
    exact ⟨decimal_injective, congrArg decimal⟩
  have hhost : ((((τ r).uid : ℕ) : ℤ) = (w.hostUserUid : ℕ) ∨ decimal old.uid = decimal w.hostUserUid) ↔
      (old.uid = w.hostUserUid ∨ (τ r).uid = w.hostUserUid) := by
    rw [hcur, huser, or_comm]
  rw [fixOwner, int_decimal, Option.bind_eq_bind, Option.bind_some]
  by_cases hroot : old.uid = w.hostUserUid ∨ (τ r).uid = w.hostUserUid
  · rw [if_pos (hhost.mpr hroot), wanted, if_pos hroot, chown_root, hmode]
  · rw [if_neg (hroot ∘ hhost.mp), wanted, if_neg hroot, int_decimal, Option.bind_some, int_decimal,
      Option.bind_some, chown_id, hmode]

def restored (tfile : Text) (old : Attr) (r : Text) (τ : Attrs) : Attrs :=
  w.debugged tfile (Function.update τ r { w.wanted old (τ r) with mode := w.settled r old.mode })

theorem fixupFile_recorded (tfile : Text) (old : Attr) (r : Text) (τ : Attrs) :
    w.fixupFile tfile (octal old.mode) (decimal old.uid) (decimal old.gid) r τ = some (w.restored tfile old r τ) := by
  have hmode : int 8 (octal old.mode) = some (old.mode.toNat : ℤ) := int_toDigits (by decide) (by decide)
  simp only [fixupFile, hmode, fixMode_toNat, Option.bind_eq_bind, Option.bind_some]
  rw [fixOwner_decimal, Option.bind_some, fixDebug_eq]
  · rw [restored, Function.update_self, Function.update_idem]
    rfl
  · rw [Function.update_self]

def recordLine (σ : Attrs) (p : Text) : Text :=
  joinWith ' ' [p, octal (σ (w.pkgd ++ p)).mode, decimal (σ (w.pkgd ++ p)).uid, decimal (σ (w.pkgd ++ p)).gid,
    decimal (w.inode (w.pkgd ++ p))]

variable {w} {p : Text}

theorem pathChar_special {c : Char} (hc : pathChar c = true) : special c = false ∧ argSpace c = false := by
  constructor
  · by_contra h
    simp only [Bool.not_eq_false, special, argSpecial, argBlank, argQuote, Bool.or_eq_true, decide_eq_true_eq] at h
    rcases h with (((rfl | rfl) | rfl) | rfl | rfl) | rfl <;> revert hc <;> decide
  · rw [pathChar, Bool.or_eq_true, decide_eq_true_eq] at hc
    have hlow : 33 ≤ c.toNat := by
      rcases hc with hc | hc
      · have halnum := toNat_of_isAlphanum hc
        omega
      · revert c
        decide
    rw [argSpace, decide_eq_false_iff_not]
    intro h
    have hle : ∀ n ∈ [9, 10, 11, 12, 13, 32], n ≤ 32 := by decide
    have hc := hle _ h
    omega

theorem newline_not_mem (hp : p ∈ w.paths) : '\n' ∉ w.pkgd ++ p := w.newline _ _ (w.lstat_path p hp)

theorem fixupLine_recordLine (σ τ : Attrs) (hp : p ∈ w.paths) (hspace : ' ' ∉ p) :
    w.fixupLine τ (w.recordLine σ p) =
      some (w.restored (w.pkgd ++ '/' :: p) (σ (w.pkgd ++ p)) (w.pkgd ++ p) τ) := by
  have hdigits {base n : ℕ} (hb : 1 < base) (hb' : base ≤ 10) : ' ' ∉ Nat.toDigits base n :=
    not_mem_toDigits hb hb' (by decide)
  have hsplit : (w.recordLine σ p).splitOn ' ' = [p, octal (σ (w.pkgd ++ p)).mode, decimal (σ (w.pkgd ++ p)).uid,
      decimal (σ (w.pkgd ++ p)).gid, decimal (w.inode (w.pkgd ++ p))] := by
    rw [recordLine, joinWith]
    apply List.splitOn_intercalate _ _ (List.cons_ne_nil _ _)
    simp only [List.forall_mem_cons]
    exact ⟨hspace, hdigits (by decide) (by decide), hdigits (by decide) (by decide), hdigits (by decide) (by decide),
      hdigits (by decide) (by decide), fun _ h => absurd h List.not_mem_nil⟩
  rw [fixupLine, hsplit]
  simp only [w.stat_path p hp]
  exact w.fixupFile_recorded _ _ _ τ

theorem sedRemove_append (hne : w.pkgd ≠ []) (s : Text) : sedRemove w.pkgd (w.pkgd ++ s) = s := by
  obtain ⟨c, u, hu⟩ := List.exists_cons_of_ne_nil hne
  have hprefix := Ramdisk.dotPrefix_append w.pkgd s
  rw [hu, List.cons_append] at hprefix ⊢
  rw [sedRemove, if_pos hprefix, ← List.cons_append, List.drop_left]

theorem permsFile_plain (σ : Attrs) {found : List Text} (hfound : ∀ p ∈ found, p ∈ w.paths)
    (hplain : ∀ p ∈ found, ∀ c ∈ p, special c = false) :
    w.permsFile σ found = unlines (found.map (w.recordLine σ)) := by
  have hargs : xargs (unlines (found.map (w.pkgd ++ ·))) = found.map (w.pkgd ++ ·) := by
    apply xargs_unlines
    intro l hl
    obtain ⟨p, hp, rfl⟩ := List.mem_map.mp hl
    constructor
    · intro c hc
      refine ⟨fun hnl => newline_not_mem (hfound p hp) (hnl ▸ hc), ?_⟩
      have hspecial : special c = false := by
        rcases List.mem_append.mp hc with hc | hc
        · exact (pathChar_special (w.pkgd_plain.2 c hc)).1
        · exact hplain p hp c hc
      rw [special, Bool.or_eq_false_iff] at hspecial
      exact hspecial.1
    · obtain ⟨c, u, hu⟩ := List.exists_cons_of_ne_nil w.pkgd_plain.1
      refine ⟨c, u ++ p, by rw [hu, List.cons_append], ?_⟩
      exact (pathChar_special (w.pkgd_plain.2 c (by rw [hu]; exact List.mem_cons_self ..))).2
  have hstat : (found.map (w.pkgd ++ ·)).filterMap (w.statLine σ) =
      found.map (fun p => w.pkgd ++ w.recordLine σ p) := by
    rw [List.filterMap_map]
    apply List.filterMap_eq_map_iff_forall_eq_some.mpr
    intro p hp
    have hjoin (v : Text) (vs : List Text) :
        joinWith ' ' ((w.pkgd ++ p) :: v :: vs) = w.pkgd ++ joinWith ' ' (p :: v :: vs) := by
      rw [joinWith_cons_cons, joinWith_cons_cons, List.append_assoc]
    rw [Function.comp_apply, statLine, w.lstat_path p (hfound p hp), Option.map_some, hjoin]
    rfl
  rw [permsFile, hargs, hstat, List.map_map]
  congr 1
  apply List.map_congr_left
  intro p _
  exact sedRemove_append w.pkgd_plain.1 _

theorem splitOn_unlines {ls : List Text} (h : ∀ l ∈ ls, '\n' ∉ l) : (unlines ls).splitOn '\n' = ls ++ [[]] := by
  induction ls with
  | nil => rfl
  | cons l ls ih =>
    obtain ⟨hl, hls⟩ := List.forall_mem_cons.mp h
    rw [unlines_cons, List.append_assoc, List.singleton_append, List.splitOn_append_cons_self_of_not_mem hl, ih hls,
      List.cons_append]

theorem mem_recordLine {σ : Attrs} {c : Char} (hc : c.toNat < 48) (hspace : c ≠ ' ') (h : c ∈ w.recordLine σ p) :
    c ∈ p := by
  have hdigits {base n : ℕ} (hb : 1 < base) (hb' : base ≤ 10) : c ∉ Nat.toDigits base n :=
    not_mem_toDigits hb hb' (.inl hc)
  rcases mem_joinWith h with h | ⟨l, hl, hcl⟩
  · exact absurd h hspace
  · simp only [List.mem_cons, List.not_mem_nil, or_false] at hl
    rcases hl with rfl | rfl | rfl | rfl | rfl
    · exact hcl
    all_goals exact absurd hcl (hdigits (by decide) (by decide))

theorem foldlM_recordLine (σ : Attrs) {found : List Text} (hfound : ∀ p ∈ found, p ∈ w.paths)
    (hspace : ∀ p ∈ found, ' ' ∉ p) (τ : Attrs) :
    (found.map (w.recordLine σ) ++ [[]]).foldlM w.fixupLine τ =
      some (found.foldl (fun τ p => w.restored (w.pkgd ++ '/' :: p) (σ (w.pkgd ++ p)) (w.pkgd ++ p) τ) τ) := by
  induction found generalizing τ with
  | nil => rfl
  | cons p found ih =>
    rw [List.forall_mem_cons] at hfound hspace
    rw [List.map_cons, List.cons_append, List.foldlM_cons, fixupLine_recordLine σ τ hfound.1 hspace.1,
      Option.bind_eq_bind, Option.bind_some, ih hfound.2 hspace.2, List.foldl_cons]

theorem fixupPerms_plain (σ : Attrs) {found : List Text} (hfound : ∀ p ∈ found, p ∈ w.paths)
    (hplain : ∀ p ∈ found, ∀ c ∈ p, special c = false) (τ : Attrs) :
    w.fixupPerms τ (w.permsFile σ found) =
      some (found.foldl (fun τ p => w.restored (w.pkgd ++ '/' :: p) (σ (w.pkgd ++ p)) (w.pkgd ++ p) τ) τ) := by
  have hnl : ∀ l ∈ found.map (w.recordLine σ), '\n' ∉ l := by
    intro l hl hmem
    obtain ⟨p, hp, rfl⟩ := List.mem_map.mp hl
    exact newline_not_mem (hfound p hp) (List.mem_append_right _ (mem_recordLine (by decide) (by decide) hmem))
  have hcr : '\r' ∉ unlines (found.map (w.recordLine σ)) := by
    intro hmem
    obtain ⟨l, hl, hmem⟩ := List.mem_flatMap.mp hmem
    obtain ⟨p, hp, rfl⟩ := List.mem_map.mp hl
    rcases List.mem_append.mp hmem with hmem | hmem
    · have hspecial := hplain p hp _ (mem_recordLine (by decide) (by decide) hmem)
      cases hspecial
    · simp at hmem
  rw [fixupPerms, permsFile_plain σ hfound hplain, universalNewlines_id hcr, splitOn_unlines hnl]
  apply foldlM_recordLine σ hfound
  intro p hp hmem
  have hspecial := hplain p hp _ hmem
  cases hspecial

end Pkg

end CgxLayer.Package

import CgxLayer.Package.Unread
import Mathlib.Tactic.IntervalCases

namespace CgxLayer.Package.Pkg

open Text

variable (w : Pkg)

def restoreLine (σ τ : Attrs) (p : Text) : Attrs :=
  w.restored (w.pkgd ++ '/' :: p) (σ (w.pkgd ++ p)) (w.pkgd ++ p) τ

abbrev DebugOf (p r : Text) : Prop := w.stat (dtfile (w.pkgd ++ '/' :: p)) = some r

theorem debugged_apply (p : Text) (τ : Attrs) (r : Text) : w.debugged (w.pkgd ++ '/' :: p) τ r =
    if w.DebugOf p r then ⟨w.settled r (τ r).mode, root, root⟩ else τ r := by
  rw [debugged]
  unfold DebugOf
  cases w.stat (dtfile (w.pkgd ++ '/' :: p)) with
  | none => rfl
  | some d =>
    split_ifs with hd
    · cases hd
      exact Function.update_self ..
    · exact Function.update_of_ne (fun heq => hd (congrArg some heq.symm)) _ _

theorem keptBits_keptBits (m : BitVec 12) : keptBits (keptBits m) = keptBits m := by
  simp only [keptBits]
  split_ifs <;> simp_all [BitVec.and_assoc]

theorem settled_settled (r : Text) (m : BitVec 12) : w.settled r (w.settled r m) = w.settled r m := by
  simp only [settled]
  split_ifs
  · rfl
  · exact keptBits_keptBits m

variable {w} {σ τ : Attrs} {p q : Text}

theorem restoreLine_self (σ τ : Attrs) (q : Text) : w.restoreLine σ τ q (w.pkgd ++ q) =
    if w.DebugOf q (w.pkgd ++ q) then ⟨w.settled (w.pkgd ++ q) (σ (w.pkgd ++ q)).mode, root, root⟩
    else { w.wanted (σ (w.pkgd ++ q)) (τ (w.pkgd ++ q)) with
      mode := w.settled (w.pkgd ++ q) (σ (w.pkgd ++ q)).mode } := by
  rw [restoreLine, restored, debugged_apply, Function.update_self, settled_settled]

theorem restoreLine_other (σ τ : Attrs) (hne : p ≠ q) : w.restoreLine σ τ p (w.pkgd ++ q) =
    if w.DebugOf p (w.pkgd ++ q) then ⟨w.settled (w.pkgd ++ q) (τ (w.pkgd ++ q)).mode, root, root⟩
    else τ (w.pkgd ++ q) := by
  have hpath : w.pkgd ++ q ≠ w.pkgd ++ p := fun h => hne (List.append_cancel_left h).symm
  rw [restoreLine, restored, debugged_apply, Function.update_of_ne hpath]

theorem uid_foldl_restoreLine (σ : Attrs) {ps : List Text} (hq : q ∉ ps) (τ : Attrs)
    (h : (τ (w.pkgd ++ q)).uid = root) :
    (ps.foldl (w.restoreLine σ) τ (w.pkgd ++ q)).uid = root := by
  induction ps generalizing τ with
  | nil => exact h
  | cons p ps ih =>
    rw [List.mem_cons, not_or] at hq
    apply ih hq.2
    rw [restoreLine_other σ τ (Ne.symm hq.1)]
    split_ifs
    · rfl
    · exact h

theorem if_exists_cons {p : Text} {ps : List Text} (P : Text → Prop) [DecidablePred P] {m : BitVec 12} {a : Attr} :
    (if ∃ x ∈ ps, P x then ⟨(if P p then (⟨m, root, root⟩ : Attr) else { a with mode := m }).mode, root, root⟩
      else if P p then (⟨m, root, root⟩ : Attr) else { a with mode := m }) =
      if ∃ x ∈ p :: ps, P x then (⟨m, root, root⟩ : Attr) else { a with mode := m } := by
  by_cases hp : P p
  · have hex : ∃ x ∈ p :: ps, P x := ⟨p, List.mem_cons_self .., hp⟩
    rw [if_pos hp, if_pos hex]
    split_ifs
    · rfl
    · rfl
  · have hrest : (∃ x ∈ p :: ps, P x) ↔ ∃ x ∈ ps, P x := by
      rw [List.exists_mem_cons_iff, or_iff_right hp]
    rw [if_neg hp]
    simp only [hrest]

theorem foldl_restoreLine (σ : Attrs) {ps : List Text} (hq : q ∉ ps) (τ : Attrs)
    (h : w.settled (w.pkgd ++ q) (τ (w.pkgd ++ q)).mode = (τ (w.pkgd ++ q)).mode) :
    ps.foldl (w.restoreLine σ) τ (w.pkgd ++ q) =
      if ∃ p ∈ ps, w.DebugOf p (w.pkgd ++ q) then ⟨(τ (w.pkgd ++ q)).mode, root, root⟩ else τ (w.pkgd ++ q) := by
  induction ps generalizing τ with
  | nil => simp
  | cons p ps ih =>
    rw [List.mem_cons, not_or] at hq
    have hstep := restoreLine_other (w := w) σ τ (Ne.symm hq.1)
    rw [h] at hstep
    rw [List.foldl_cons, ih hq.2]
    · rw [hstep]
      exact if_exists_cons (w.DebugOf · (w.pkgd ++ q))
    · rw [hstep]
      split_ifs
      · exact h
      · exact h

theorem foldl_paths {xs ys : List Text} (hpaths : w.paths = xs ++ q :: ys) (σ τ : Attrs)
    (huid : (τ (w.pkgd ++ q)).uid = root) :
    w.paths.foldl (w.restoreLine σ) τ (w.pkgd ++ q) =
      if ∃ p ∈ q :: ys, w.DebugOf p (w.pkgd ++ q) then ⟨w.settled (w.pkgd ++ q) (σ (w.pkgd ++ q)).mode, root, root⟩
      else { w.wanted (σ (w.pkgd ++ q)) (τ (w.pkgd ++ q)) with
        mode := w.settled (w.pkgd ++ q) (σ (w.pkgd ++ q)).mode } := by
  have hnodup : (xs ++ q :: ys).Nodup := hpaths ▸ w.nodup
  have hxs : q ∉ xs := fun hmem => (List.disjoint_of_nodup_append hnodup) hmem (List.mem_cons_self ..)
  have hys : q ∉ ys := (List.nodup_cons.mp hnodup.of_append_right).1
  have hbefore := uid_foldl_restoreLine (w := w) σ hxs τ huid
  have hself := restoreLine_self (w := w) σ (xs.foldl (w.restoreLine σ) τ) q
  have hwanted : w.wanted (σ (w.pkgd ++ q)) (xs.foldl (w.restoreLine σ) τ (w.pkgd ++ q)) =
      w.wanted (σ (w.pkgd ++ q)) (τ (w.pkgd ++ q)) := by
    rw [wanted, wanted, hbefore, huid]
  rw [hwanted] at hself
  rw [hpaths, List.foldl_append, List.foldl_cons, foldl_restoreLine σ hys, hself]
  · exact if_exists_cons (w.DebugOf · (w.pkgd ++ q))
  · rw [hself]
    split_ifs
    · exact settled_settled ..
    · exact settled_settled ..

theorem keptBits_eq_iff (m : BitVec 12) :
    keptBits m = m ↔ m.getLsbD 11 = false ∧ (m.getLsbD 10 = true → m.getLsbD 3 = false) := by
  constructor
  · intro h
    constructor
    · rw [← h, keptBits]
      split_ifs <;> simp
    · intro hsgid
      by_contra hexec
      rw [← h, keptBits, if_pos (Bool.eq_true_of_not_eq_false hexec)] at hsgid
      simp at hsgid
  · rintro ⟨hsuid, hsgid⟩
    rw [BitVec.getLsbD_eq_getElem (by decide)] at hsuid
    apply BitVec.eq_of_getLsbD_eq
    intro i hi
    rw [keptBits]
    split_ifs with hexec
    · have hbit : m.getLsbD 10 = false := by
        by_contra h
        rw [hsgid (Bool.eq_true_of_not_eq_false h)] at hexec
        cases hexec
      rw [BitVec.getLsbD_eq_getElem (by decide)] at hbit
      interval_cases i <;> simp [hsuid, hbit]
    · interval_cases i <;> simp [hsuid]

theorem foldl_paths_eq_wanted_iff {xs ys : List Text} (hpaths : w.paths = xs ++ q :: ys) (σ τ : Attrs)
    (huid : (τ (w.pkgd ++ q)).uid = root) :
    w.paths.foldl (w.restoreLine σ) τ (w.pkgd ++ q) = w.wanted (σ (w.pkgd ++ q)) (τ (w.pkgd ++ q)) ↔
      w.settled (w.pkgd ++ q) (σ (w.pkgd ++ q)).mode = (σ (w.pkgd ++ q)).mode ∧
        ((∃ p ∈ q :: ys, w.DebugOf p (w.pkgd ++ q)) → (σ (w.pkgd ++ q)).uid = w.hostUserUid ∨ w.hostUserUid = root ∨
          ((σ (w.pkgd ++ q)).uid = root ∧ (σ (w.pkgd ++ q)).gid = root)) := by
  rw [foldl_paths hpaths σ τ huid, wanted, huid]
  generalize σ (w.pkgd ++ q) = old
  by_cases hhost : old.uid = w.hostUserUid ∨ root = w.hostUserUid
  · have hroot : old.uid = w.hostUserUid ∨ w.hostUserUid = root ∨ (old.uid = root ∧ old.gid = root) :=
      hhost.imp_right fun h => .inl h.symm
    rw [if_pos hhost]
    simp only [ite_self, Attr.mk.injEq, and_true, hroot, implies_true]
  · rw [if_neg hhost]
    split_ifs with hdebug
    · rw [not_or] at hhost
      simp only [hdebug, true_implies, or_iff_right hhost.1, or_iff_right (Ne.symm hhost.2)]
      rw [Attr.ext_iff]
      exact ⟨fun h => ⟨h.1, h.2.1.symm, h.2.2.symm⟩, fun h => ⟨h.1, h.2.1.symm, h.2.2.symm⟩⟩
    · rw [Attr.ext_iff]
      exact ⟨fun h => ⟨h.1, fun hex => absurd hex hdebug⟩, fun h => ⟨h.1, rfl, rfl⟩⟩

theorem fixupStrippedPerms_plain (hnames : ∀ p ∈ w.paths, ∀ c ∈ p, special c = false) (σ τ : Attrs)
    {disable stripInfo : Text} (hdisable : disable ≠ ['1'])
    (hinfo : startsWith "ERROR: ld.so: object".toList stripInfo = true) :
    w.fixupStrippedPerms disable stripInfo (w.getFileperms σ) τ =
      some (w.paths.foldl (w.restoreLine σ) (w.copytree τ)) := by
  have hdirs : ∀ p ∈ w.dirs, p ∈ w.paths := fun p hp => List.mem_append_left _ hp
  have hfiles : ∀ p ∈ w.files, p ∈ w.paths := fun p hp => List.mem_append_right _ hp
  have hearly : ¬ (decide (disable = ['1']) || !startsWith "ERROR: ld.so: object".toList stripInfo) = true := by
    rw [hinfo]
    simpa using hdisable
  rw [fixupStrippedPerms, if_neg hearly, getFileperms, List.foldlM_cons,
    fixupPerms_plain σ hdirs (fun p hp => hnames p (hdirs p hp)), Option.bind_eq_bind, Option.bind_some,
    List.foldlM_cons,
    fixupPerms_plain σ hfiles (fun p hp => hnames p (hfiles p hp)), Option.bind_eq_bind, Option.bind_some, paths,
    List.foldl_append]
  rfl

theorem uid_copytree (τ : Attrs) (hp : p ∈ w.paths) : (w.copytree τ (w.pkgd ++ p)).uid = root := by
  rw [copytree, if_pos (List.mem_map_of_mem hp)]

theorem settled_of_dir (hq : q ∈ w.dirs) (m : BitVec 12) : w.settled (w.pkgd ++ q) m = m := by
  rw [settled, w.kinds.1 q hq]
  rfl

theorem settled_of_file (hq : q ∈ w.files) (m : BitVec 12) : w.settled (w.pkgd ++ q) m = keptBits m := by
  rw [settled, w.kinds.2 q hq]
  rfl

theorem restores_iff_of_names (hnames : ∀ p ∈ w.paths, ∀ c ∈ p, special c = false) (σ : Attrs) :
    w.Restores σ ↔ w.Recorded σ := by
  constructor
  · intro h
    obtain ⟨τ', hτ', hpaths⟩ := h [] "ERROR: ld.so: object".toList σ (by decide) (by decide)
    rw [fixupStrippedPerms_plain hnames σ σ (by decide) (by decide), Option.some_inj] at hτ'
    subst hτ'
    have hpath {xs q ys} (hsplit : w.paths = xs ++ q :: ys) := by
      have hq : q ∈ w.paths := hsplit ▸ List.mem_append_right _ (List.mem_cons_self ..)
      exact (foldl_paths_eq_wanted_iff hsplit σ _ (uid_copytree σ hq)).mp (hpaths q hq)
    refine ⟨hnames, fun q hq => ?_, fun xs q ys hsplit => (hpath hsplit).2⟩
    obtain ⟨xs, ys, hsplit⟩ := List.append_of_mem (List.mem_append_right w.dirs hq)
    rw [← keptBits_eq_iff, ← settled_of_file hq]
    exact (hpath hsplit).1
  · intro h disable stripInfo τ hdisable hinfo
    refine ⟨_, fixupStrippedPerms_plain hnames σ τ hdisable hinfo, fun q hq => ?_⟩
    obtain ⟨xs, ys, hsplit⟩ := List.append_of_mem hq
    apply (foldl_paths_eq_wanted_iff hsplit σ _ (uid_copytree τ hq)).mpr
    refine ⟨?_, h.debug xs q ys hsplit⟩
    rcases List.mem_append.mp hq with hdir | hfile
    · exact settled_of_dir hdir _
    · rw [settled_of_file hfile, keptBits_eq_iff]
      exact h.setid q hfile

theorem restores_iff_recorded (w : Pkg) (σ : Attrs) : w.Restores σ ↔ w.Recorded σ := by
  constructor
  · intro h
    exact (restores_iff_of_names (names_of_restores h) σ).mp h
  · intro h
    exact (restores_iff_of_names h.names σ).mpr h

def suPath : Text := "/w/package/su".toList

def suPkg : Pkg where
  pkgd := "/w/package".toList
  dirs := [[]]
  files := ["/su".toList]
  hostUserUid := ⟨1000, by decide⟩
  isDir := fun r => r = "/w/package".toList
  inode := fun _ => 7
  lstat := fun a => if a ∈ ["/w/package".toList, suPath] then some a else none
  stat := fun s =>
    if s = "/w/package/".toList then some "/w/package".toList
    else if s = "/w/package//su".toList then some suPath
    else none
  pkgd_plain := by decide
  nodup := by decide
  kinds := by decide
  newline := by
    intro a r h
    split_ifs at h with ha
    have hnames : ∀ a ∈ ["/w/package".toList, suPath], '\n' ∉ a := by decide
    exact hnames a ha
  lstat_path := by decide
  stat_path := by decide
  stat_special := by
    intro p hp s _
    have hplain : ∀ p ∈ [[], "/su".toList], p.filter special = [] := by decide
    rw [hplain p hp]
    exact List.nil_sublist s
  operands := by decide

def suAttrs : Attrs := fun r => ⟨if r = suPath then 0o4755#12 else 0o755#12, root, root⟩

theorem su_not_restored : ¬ suPkg.Restores suAttrs := by
  intro h
  have hplain : ∀ p ∈ suPkg.paths, ∀ c ∈ p, special c = false := by decide
  have hsetid := ((restores_iff_of_names hplain suAttrs).mp h).setid "/su".toList (List.mem_singleton_self _)
  revert hsetid
  decide

end CgxLayer.Package.Pkg

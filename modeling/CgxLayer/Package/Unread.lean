import CgxLayer.Package.PermsLine
import CgxLayer.Runs
import Mathlib.Data.Finset.Max

namespace CgxLayer.Package.Pkg

open Text

def Unread (w : Pkg) (perms : List Text) (r : Text) : Prop :=
  ∀ file ∈ perms, ∀ line ∈ (universalNewlines file).splitOn '\n', ∀ fname rest, line.splitOn ' ' = fname :: rest →
    w.stat (w.pkgd ++ '/' :: fname) ≠ some r

variable {w : Pkg} {σ τ τ' : Attrs} {p r : Text}

theorem keptBits_zero (m : BitVec 12) : (keptBits m).getLsbD 0 = m.getLsbD 0 := by
  rw [keptBits]
  split_ifs <;> simp

theorem chown_bit {d : Text} {uid gid : ℤ} (h : w.chown d uid gid τ = some τ') (r : Text) :
    (τ' r).mode.getLsbD 0 = (τ r).mode.getLsbD 0 := by
  obtain ⟨u, -, h⟩ := Option.bind_eq_some_iff.mp h
  obtain ⟨g, -, h⟩ := Option.bind_eq_some_iff.mp h
  cases h
  by_cases hr : r = d
  · rw [hr, Function.update_self]
    split_ifs
    · rfl
    · exact keptBits_zero _
  · rw [Function.update_of_ne hr]

theorem fixMode_other {d : Text} {m : ℤ} (h : fixMode d m τ = some τ') (hr : r ≠ d) : τ' r = τ r := by
  rw [fixMode] at h
  split_ifs at h
  · rw [chmod] at h
    split_ifs at h
    cases h
    exact Function.update_of_ne hr _ _
  · cases h
    rfl

theorem fixOwner_bit {d user group : Text} (h : w.fixOwner d user group τ = some τ') (r : Text) :
    (τ' r).mode.getLsbD 0 = (τ r).mode.getLsbD 0 := by
  rw [fixOwner] at h
  obtain ⟨check, -, h⟩ := Option.bind_eq_some_iff.mp h
  split_ifs at h
  · exact chown_bit h r
  · obtain ⟨u, -, h⟩ := Option.bind_eq_some_iff.mp h
    obtain ⟨g, -, h⟩ := Option.bind_eq_some_iff.mp h
    exact chown_bit h r

theorem fixupFile_bit {tfile mode user group d : Text} (h : w.fixupFile tfile mode user group d τ = some τ')
    (hr : r ≠ d) : (τ' r).mode.getLsbD 0 = (τ r).mode.getLsbD 0 := by
  obtain ⟨m, -, h⟩ := Option.bind_eq_some_iff.mp h
  obtain ⟨τ₁, h₁, h⟩ := Option.bind_eq_some_iff.mp h
  obtain ⟨τ₂, h₂, h⟩ := Option.bind_eq_some_iff.mp h
  rw [← fixMode_other h₁ hr, ← fixOwner_bit h₂ r]
  rw [fixDebug] at h
  split at h
  · exact chown_bit h r
  · cases h
    rfl

theorem fixupLine_bit {line : Text} (h : w.fixupLine τ line = some τ')
    (hr : ∀ fname rest, line.splitOn ' ' = fname :: rest → w.stat (w.pkgd ++ '/' :: fname) ≠ some r) :
    (τ' r).mode.getLsbD 0 = (τ r).mode.getLsbD 0 := by
  rw [fixupLine] at h
  split at h
  · next fname mode user group inode hsplit =>
    dsimp only at h
    split at h
    · next d hd =>
      apply fixupFile_bit h
      rintro rfl
      exact hr _ _ hsplit hd
    · cases h
      rfl
  · cases h
    rfl

theorem fixupStrippedPerms_bit {disable stripInfo : Text} {perms : List Text} (hr : w.Unread perms r)
    (hdisable : disable ≠ ['1']) (hinfo : startsWith "ERROR: ld.so: object".toList stripInfo = true)
    (h : w.fixupStrippedPerms disable stripInfo perms τ = some τ') :
    (τ' r).mode.getLsbD 0 = (w.copytree τ r).mode.getLsbD 0 := by
  rw [fixupStrippedPerms, if_neg (by rw [hinfo]; simpa using hdisable)] at h
  refine @Runs.foldlM_inv _ _ _ (fun τ' => (τ' r).mode.getLsbD 0 = (w.copytree τ r).mode.getLsbD 0) _ ?_ _ rfl _ h
  intro τ₁ file hfile h₁ τ₂ h₂
  refine @Runs.foldlM_inv _ _ _ (fun τ' => (τ' r).mode.getLsbD 0 = (w.copytree τ r).mode.getLsbD 0) _ ?_ _ h₁ _ h₂
  intro τ₃ line hline h₃ τ₄ h₄
  rw [fixupLine_bit h₄ (hr file hfile line hline)]
  exact h₃

theorem unread_of_blank {c : Char} (hc : c = ' ' ∨ c = '\r') (hp : p ∈ w.paths) (hcp : c ∈ p) (perms : List Text) :
    w.Unread perms (w.pkgd ++ p) := by
  intro file _ line hline fname rest hsplit hstat
  have hspecial : special c = true := by
    rcases hc with rfl | rfl <;> decide
  have hmem := (w.stat_special p hp _ hstat).subset (List.mem_filter.mpr ⟨hcp, hspecial⟩)
  have hfname : fname ∈ line.splitOn ' ' := hsplit ▸ List.mem_cons_self ..
  rcases List.mem_append.mp hmem with hmem | hmem
  · rw [(pathChar_special (w.pkgd_plain.2 c hmem)).1] at hspecial
    cases hspecial
  · rcases List.mem_cons.mp hmem with rfl | hmem
    · revert hspecial
      decide
    · rcases hc with rfl | rfl
      · exact not_mem_of_mem_splitOn hfname hmem
      · exact carriage_not_mem_universalNewlines file (mem_of_mem_splitOn hline (mem_of_mem_splitOn hfname hmem))

theorem sedRemove_sublist (pkgd s : Text) : (sedRemove pkgd s).Sublist s := by
  induction s with
  | nil => exact List.Sublist.slnil
  | cons c s ih =>
    rw [sedRemove]
    split_ifs
    · exact List.drop_sublist _ _
    · exact ih.cons_cons c

def fieldSpecial (c : Char) : Bool := argSpecial c && c != ' '

theorem countP_joinWith {a : Text} {nums : List Text} (hnums : ∀ l ∈ nums, ∀ c ∈ l, argSpecial c = false) :
    (joinWith ' ' (a :: nums)).countP fieldSpecial = a.countP fieldSpecial := by
  cases nums with
  | nil => rw [joinWith_singleton]
  | cons n nums =>
    have hzero : (' ' :: joinWith ' ' (n :: nums)).countP fieldSpecial = 0 := by
      rw [List.countP_eq_zero]
      intro c hc
      rcases List.mem_cons.mp hc with rfl | hc
      · decide
      · rcases mem_joinWith hc with rfl | ⟨l, hl, hcl⟩
        · decide
        · simp [fieldSpecial, hnums l hl c hcl]
    rw [joinWith_cons_cons, List.countP_append, hzero, Nat.add_zero]

theorem specials_fname {a line fname : Text} {nums rest : List Text}
    (hnums : ∀ l ∈ nums, ∀ c ∈ l, argSpecial c = false)
    (hline : line.Sublist (joinWith ' ' (a :: nums))) (hsplit : line.splitOn ' ' = fname :: rest) :
    specials fname ≤ specials a := by
  have hspace : ' ' ∉ fname := not_mem_of_mem_splitOn (hsplit ▸ List.mem_cons_self ..)
  have hfname : fname.Sublist line := by
    have hjoin : [' '].intercalate (line.splitOn ' ') = line := List.intercalate_splitOn ' '
    rw [hsplit] at hjoin
    cases rest with
    | nil => simp_all
    | cons v rest =>
      have hcons := joinWith_cons_cons ' ' fname v rest
      rw [joinWith, hjoin] at hcons
      rw [hcons]
      exact List.sublist_append_left _ _
  calc specials fname = fname.countP fieldSpecial := by
        apply List.countP_congr
        intro c hc
        have hne : c ≠ ' ' := by
          rintro rfl
          exact hspace hc
        simp [fieldSpecial, hne]
    _ ≤ (joinWith ' ' (a :: nums)).countP fieldSpecial := (hfname.trans hline).countP_le
    _ = a.countP fieldSpecial := countP_joinWith hnums
    _ ≤ specials a := by
        apply List.countP_mono_left
        intro c _ hc
        exact (Bool.and_eq_true_iff.mp hc).1

structure LineOf (w : Pkg) (found : List Text) (line : Text) (a : Text) (nums : List Text) : Prop where
  arg : a ∈ xargs (unlines (found.map (w.pkgd ++ ·)))
  newline : '\n' ∉ a
  digits : ∀ l ∈ nums, ∀ c ∈ l, c.isDigit = true
  left : line.Sublist (joinWith ' ' (a :: nums))

theorem lineOf_statLine {found : List Text} {a l : Text} (ha : a ∈ xargs (unlines (found.map (w.pkgd ++ ·))))
    (hl : w.statLine σ a = some l) : ∃ nums, LineOf w found (sedRemove w.pkgd l) a nums := by
  obtain ⟨r, hr, rfl⟩ := Option.map_eq_some_iff.mp hl
  refine ⟨_, ha, w.newline a r hr, ?_, sedRemove_sublist _ _⟩
  have hdigits (base n : ℕ) (hb : 0 < base) (hb' : base ≤ 10) : ∀ c ∈ Nat.toDigits base n, c.isDigit = true :=
    fun _ hc => Nat.isDigit_of_mem_toDigits hb hb' hc
  simp only [List.forall_mem_cons]
  exact ⟨hdigits _ _ (by decide) (by decide), hdigits _ _ (by decide) (by decide), hdigits _ _ (by decide) (by decide),
    hdigits _ _ (by decide) (by decide), fun _ h => absurd h List.not_mem_nil⟩

theorem LineOf.mem {found : List Text} {line a : Text} {nums : List Text} (h : LineOf w found line a nums) {c : Char}
    (hc : c ∈ line) : c = ' ' ∨ c ∈ a ∨ c.isDigit = true := by
  rcases mem_joinWith (h.left.subset hc) with hc | ⟨l, hl, hcl⟩
  · exact .inl hc
  · rcases List.mem_cons.mp hl with rfl | hl
    · exact .inr (.inl hcl)
    · exact .inr (.inr (h.digits l hl c hcl))

theorem carriage_not_mem_arg {found : List Text} (hfound : ∀ p ∈ found, '\r' ∉ p) {a : Text}
    (ha : a ∈ xargs (unlines (found.map (w.pkgd ++ ·)))) : '\r' ∉ a := by
  intro hmem
  rcases mem_readArgs _ _ _ a ha hmem with hmem | hmem
  · cases hmem
  · obtain ⟨l, hl, hmem⟩ := List.mem_flatMap.mp hmem
    obtain ⟨p, hp, rfl⟩ := List.mem_map.mp hl
    rcases List.mem_append.mp hmem with hmem | hmem
    · rcases List.mem_append.mp hmem with hmem | hmem
      · have hspecial := (pathChar_special (w.pkgd_plain.2 _ hmem)).1
        cases hspecial
      · exact hfound p hp hmem
    · simp at hmem

theorem lineOf_permsFile {found : List Text} (hfound : ∀ p ∈ found, '\r' ∉ p) {line : Text}
    (hline : line ∈ (universalNewlines (w.permsFile σ found)).splitOn '\n') :
    line = [] ∨ ∃ a nums, LineOf w found line a nums := by
  have hlines : ∀ l ∈ ((xargs (unlines (found.map (w.pkgd ++ ·)))).filterMap (w.statLine σ)).map (sedRemove w.pkgd),
      ∃ a nums, LineOf w found l a nums := by
    intro _ hl
    obtain ⟨l, hstat, rfl⟩ := List.mem_map.mp hl
    obtain ⟨a, ha, hl⟩ := List.mem_filterMap.mp hstat
    exact ⟨a, lineOf_statLine ha hl⟩
  have hnot (c : Char) (hblank : c ≠ ' ') (hdigit : c.isDigit = false) {l a nums} (h : LineOf w found l a nums)
      (ha : c ∉ a) : c ∉ l := by
    intro hc
    rcases h.mem hc with hc | hc | hc
    · exact hblank hc
    · exact ha hc
    · rw [hdigit] at hc
      cases hc
  have hcr : '\r' ∉ w.permsFile σ found := by
    intro hmem
    obtain ⟨l, hl, hmem⟩ := List.mem_flatMap.mp hmem
    obtain ⟨a, nums, h⟩ := hlines l hl
    rcases List.mem_append.mp hmem with hmem | hmem
    · exact hnot _ (by decide) (by decide) h (carriage_not_mem_arg hfound h.arg) hmem
    · simp at hmem
  rw [universalNewlines_id hcr, permsFile, splitOn_unlines] at hline
  · rcases List.mem_append.mp hline with hline | hline
    · exact .inr (hlines line hline)
    · exact .inl (List.mem_singleton.mp hline)
  · intro l hl
    obtain ⟨a, nums, h⟩ := hlines l hl
    exact hnot _ (by decide) (by decide) h h.newline

theorem specials_pkgd (w : Pkg) (s : Text) : specials (w.pkgd ++ s) = specials s := by
  have hzero : w.pkgd.countP argSpecial = 0 := by
    apply List.countP_eq_zero.mpr
    intro c hc
    have hspecial := (pathChar_special (w.pkgd_plain.2 c hc)).1
    rw [special, Bool.or_eq_false_iff] at hspecial
    exact Bool.eq_false_iff.mp hspecial.1
  rw [specials, List.countP_append, hzero, Nat.zero_add, specials]

theorem specials_le_of_stat (hp : p ∈ w.paths) {fname : Text}
    (h : w.stat (w.pkgd ++ '/' :: fname) = some (w.pkgd ++ p)) : specials p ≤ specials fname := by
  calc specials p = (p.filter special).countP argSpecial := by
        rw [List.countP_filter]
        apply List.countP_congr
        intro c _
        simp only [special, Bool.and_eq_true, Bool.or_eq_true]
        exact ⟨fun h => ⟨h, .inl h⟩, And.left⟩
    _ ≤ specials (w.pkgd ++ '/' :: fname) := (w.stat_special p hp _ h).countP_le
    _ = specials ('/' :: fname) := specials_pkgd w _
    _ = specials fname := List.countP_cons_of_neg (by decide)

theorem unread_of_max {σ : Attrs} (hblank : ∀ p ∈ w.paths, '\r' ∉ p) (hp : p ∈ w.paths) (hpos : 0 < specials p)
    (hmax : ∀ q ∈ w.paths, specials q ≤ specials p) : w.Unread (w.getFileperms σ) (w.pkgd ++ p) := by
  intro file hfile line hline fname rest hsplit hstat
  obtain ⟨found, hfound, rfl⟩ : ∃ found, (∀ q ∈ found, q ∈ w.paths) ∧ file = w.permsFile σ found := by
    simp only [getFileperms, List.mem_cons, List.not_mem_nil, or_false] at hfile
    rcases hfile with rfl | rfl
    · exact ⟨_, fun q hq => List.mem_append_left _ hq, rfl⟩
    · exact ⟨_, fun q hq => List.mem_append_right _ hq, rfl⟩
  have hle := specials_le_of_stat hp hstat
  have hlt : specials fname < specials p := by
    rcases lineOf_permsFile (fun q hq => hblank q (hfound q hq)) hline with rfl | ⟨a, nums, h⟩
    · cases hsplit
      exact hpos
    · have hnums : ∀ l ∈ nums, ∀ c ∈ l, argSpecial c = false := by
        intro l hl c hc
        have hdigit := h.digits l hl c hc
        by_contra hspecial
        simp only [Bool.not_eq_false, argSpecial, argBlank, argQuote, Bool.or_eq_true, decide_eq_true_eq] at hspecial
        rcases hspecial with ((rfl | rfl) | rfl) | rfl | rfl <;> cases hdigit
      apply (specials_fname hnums h.left hsplit).trans_lt
      refine specials_xargs hpos ?_ a h.arg h.newline
      intro l hl
      obtain ⟨q, hq, rfl⟩ := List.mem_map.mp hl
      rw [specials_pkgd]
      exact ⟨newline_not_mem (hfound q hq), hmax q (hfound q hq)⟩
  omega

theorem exists_unread (h : ∃ p ∈ w.paths, ∃ c ∈ p, special c = true) (σ : Attrs) :
    ∃ p ∈ w.paths, w.Unread (w.getFileperms σ) (w.pkgd ++ p) := by
  by_cases hblank : ∃ c, (c = ' ' ∨ c = '\r') ∧ ∃ p ∈ w.paths, c ∈ p
  · obtain ⟨c, hc, p, hp, hcp⟩ := hblank
    exact ⟨p, hp, unread_of_blank hc hp hcp _⟩
  · have hcr : ∀ p ∈ w.paths, '\r' ∉ p := fun p hp hmem => hblank ⟨_, .inr rfl, p, hp, hmem⟩
    obtain ⟨p₀, hp₀, c, hc, hspecial⟩ := h
    have harg : argSpecial c = true := by
      rw [special, Bool.or_eq_true, decide_eq_true_eq] at hspecial
      exact hspecial.resolve_right fun heq => hcr p₀ hp₀ (heq ▸ hc)
    obtain ⟨p, hp, hmax⟩ := w.paths.toFinset.exists_max_image specials ⟨p₀, List.mem_toFinset.mpr hp₀⟩
    rw [List.mem_toFinset] at hp
    simp only [List.mem_toFinset] at hmax
    have hpos : 0 < specials p₀ := List.countP_pos_iff.mpr ⟨c, hc, harg⟩
    exact ⟨p, hp, unread_of_max hcr hp (hpos.trans_le (hmax p₀ hp₀)) hmax⟩

theorem names_of_restores (h : w.Restores σ) : ∀ p ∈ w.paths, ∀ c ∈ p, special c = false := by
  by_contra hnames
  push Not at hnames
  obtain ⟨p, hp, hunread⟩ := exists_unread (by simpa using hnames) σ
  have hinfo : startsWith "ERROR: ld.so: object".toList "ERROR: ld.so: object".toList = true := by decide
  have hdisable : ([] : Text) ≠ ['1'] := by decide
  let τ : Attrs := Function.update σ (w.pkgd ++ p) { σ (w.pkgd ++ p) with mode := (σ (w.pkgd ++ p)).mode ^^^ 1#12 }
  obtain ⟨τ', hτ', hpaths⟩ := h [] _ τ hdisable hinfo
  have hbit := fixupStrippedPerms_bit hunread hdisable hinfo hτ'
  have hmode : (τ' (w.pkgd ++ p)).mode = (σ (w.pkgd ++ p)).mode := by
    rw [hpaths p hp, wanted]
    split_ifs
    · rfl
    · rfl
  have hcopy : (w.copytree τ (w.pkgd ++ p)).mode = (σ (w.pkgd ++ p)).mode ^^^ 1#12 := by
    have hself : τ (w.pkgd ++ p) = { σ (w.pkgd ++ p) with mode := (σ (w.pkgd ++ p)).mode ^^^ 1#12 } :=
      Function.update_self ..
    rw [copytree, if_pos (List.mem_map_of_mem hp), hself]
  rw [hmode, hcopy, BitVec.getLsbD_xor] at hbit
  revert hbit
  cases (σ (w.pkgd ++ p)).mode.getLsbD 0 <;> decide

end CgxLayer.Package.Pkg

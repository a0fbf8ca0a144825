import CgxLayer.Ramdisk.ModuleClosure

namespace CgxLayer.Ramdisk

open Text ModuleTree

variable (t : ModuleTree)

def entryWords : List Text := t.entries.flatMap (fun e => (e.key ++ [':']) :: e.deps)

def scanNames (requiredModules : List Text) : List Text := firstWords t requiredModules ++ entryWords t

def noScan : Scan := ⟨[], [], [], false⟩

def scanned (requiredModules : List Text) : Scan :=
  (scanLoop t ((scanNames t requiredModules).length + 1) true requiredModules noScan).getD noScan

variable {t} {requiredModules : List Text}

theorem getDeps_subset {j : Text} {ks : List Text} (h : t.getDeps j = some ks) : ks ⊆ entryWords t := by
  cases hline : t.depLine j with
  | none => simp [getDeps, hline] at h
  | some line =>
    obtain ⟨e, he, rfl⟩ := depLine_some hline
    rw [getDeps_line he hline] at h
    obtain rfl := Option.some.inj h
    intro k hk
    apply List.mem_flatMap.mpr
    refine ⟨e, he, ?_⟩
    rcases words_sedStrip he j with hw | hw
    · exact hw ▸ hk
    · exact List.mem_cons_of_mem _ (hw ▸ hk)

theorem nodup_addName {tmp : List Text} (h : tmp.Nodup) (j : Text) : (addName t tmp j).Nodup := by
  unfold addName
  split_ifs with hj
  · rw [Bool.and_eq_true, Bool.not_eq_true', List.any_eq_false] at hj
    have hfresh : j ∉ tmp := fun hmem => hj.2 j hmem (dotMatch_self j)
    rw [← List.concat_eq_append]
    exact h.concat hfresh
  · exact h

theorem nodup_foldl_addName (js : List Text) {tmp : List Text} (h : tmp.Nodup) :
    (js.foldl (addName t) tmp).Nodup := by
  induction js generalizing tmp with
  | nil => exact h
  | cons j js ih => exact ih (nodup_addName h j)

theorem scanModule_cases (first : Bool) (s : Scan) (j : Text) :
    scanModule t first s j = s ∨
      (scanModule t first s j).tmp = s.tmp ++ [j] ∧
        ((t.getDeps j = none ∧ (scanModule t first s j).new = s.new ∧ (scanModule t first s j).error = true) ∨
          ∃ deps, t.getDeps j = some deps ∧ (scanModule t first s j).new = s.new ++ deps ∧
            (scanModule t first s j).error = s.error) := by
  unfold scanModule
  split_ifs
  · exact .inl rfl
  · exact .inl rfl
  all_goals
    right
    cases hj : t.getDeps j with
    | none => exact ⟨rfl, .inl ⟨rfl, rfl, rfl⟩⟩
    | some deps => exact ⟨rfl, .inr ⟨deps, rfl, rfl, rfl⟩⟩

structure Tallied (t : ModuleTree) (s : Scan) : Prop where
  error : s.error = s.tmp.any (fun j => (t.getDeps j).isNone)
  new : s.new ⊆ entryWords t

theorem tallied_scanModule {s : Scan} (h : Tallied t s) (first : Bool) (j : Text) :
    Tallied t (scanModule t first s j) := by
  rcases scanModule_cases (t := t) first s j with heq | ⟨htmp, ⟨hj, hnew, herror⟩ | ⟨deps, hj, hnew, herror⟩⟩
  · rw [heq]
    exact h
  · refine ⟨?_, hnew ▸ h.new⟩
    rw [herror, htmp]
    simp [hj]
  · refine ⟨?_, ?_⟩
    · rw [herror, htmp, h.error]
      simp [hj]
    · rw [hnew]
      exact List.append_subset.mpr ⟨h.new, getDeps_subset hj⟩

theorem tallied_foldl (first : Bool) (js : List Text) {s : Scan} (h : Tallied t s) :
    Tallied t (js.foldl (scanModule t first) s) := by
  induction js generalizing s with
  | nil => exact h
  | cons j js ih => exact ih (tallied_scanModule h first j)

theorem tallied_scanRound (first : Bool) (pf : List Text) {s : Scan} (h : Tallied t s) :
    Tallied t (scanRound t first pf s) := by
  rw [scanRound_eq]
  exact tallied_foldl first _ ⟨h.error, List.nil_subset _⟩

theorem foldl_scanModule_grows (first : Bool) (js : List Text) (s : Scan) :
    s.tmp.length ≤ (js.foldl (scanModule t first) s).tmp.length ∧
      ((js.foldl (scanModule t first) s).new ≠ s.new →
        s.tmp.length < (js.foldl (scanModule t first) s).tmp.length) := by
  induction js generalizing s with
  | nil => exact ⟨le_refl _, fun h => absurd rfl h⟩
  | cons j js ih =>
    rw [List.foldl_cons]
    obtain ⟨hle, hlt⟩ := ih (scanModule t first s j)
    rcases scanModule_cases (t := t) first s j with heq | ⟨htmp, -⟩
    · rw [heq] at hle hlt ⊢
      exact ⟨hle, hlt⟩
    · rw [htmp, List.length_append, List.length_singleton] at hle
      exact ⟨by omega, fun _ => by omega⟩

theorem scanRound_grows (first : Bool) (pf : List Text) {s : Scan} (h : (scanRound t first pf s).new ≠ []) :
    s.tmp.length < (scanRound t first pf s).tmp.length := by
  rw [scanRound_eq] at h ⊢
  exact (foldl_scanModule_grows first _ { s with new := [] }).2 h

structure Within (t : ModuleTree) (requiredModules : List Text) (s : Scan) : Prop where
  nodup : s.tmp.Nodup
  tmp : s.tmp ⊆ scanNames t requiredModules

theorem Within.length_le {s : Scan} (h : Within t requiredModules s) :
    s.tmp.length ≤ (scanNames t requiredModules).length := (List.subperm_of_subset h.nodup h.tmp).length_le

theorem within_scanRound {first : Bool} {pf : List Text} {s : Scan} (h : Within t requiredModules s)
    (hpf : pf.flatMap (t.expand first) ⊆ scanNames t requiredModules) :
    Within t requiredModules (scanRound t first pf s) := by
  rw [scanRound_eq]
  constructor
  · rw [foldl_scanModule_tmp]
    exact nodup_foldl_addName _ h.nodup
  · rw [foldl_scanModule_tmp]
    intro x hx
    rcases mem_foldl_addName hx with hx | ⟨hx, -⟩
    · exact h.tmp hx
    · exact hpf hx

theorem exists_scanLoop {first : Bool} {pf : List Text} {s : Scan} {n : ℕ} (hwithin : Within t requiredModules s)
    (htallied : Tallied t s) (hpf : pf.flatMap (t.expand first) ⊆ scanNames t requiredModules)
    (hn : (scanNames t requiredModules).length - s.tmp.length < n) :
    ∃ s', scanLoop t n first pf s = some s' ∧ Tallied t s' := by
  induction n generalizing first pf s with
  | zero => omega
  | succ n ih =>
    have hround := within_scanRound hwithin hpf
    have htallied' := tallied_scanRound first pf htallied
    rw [scanLoop]
    split_ifs with hnew
    · exact ⟨_, rfl, htallied'⟩
    · have hgrows := scanRound_grows first pf (by simpa using hnew)
      have hlength := hround.length_le
      apply ih hround htallied' _ (by omega)
      have hwords : ∀ js : List Text, js.flatMap (t.expand false) = js := fun js => List.flatMap_singleton' js
      rw [hwords]
      exact fun x hx => List.mem_append_right _ (htallied'.new hx)

theorem scanLoop_mono {first : Bool} {pf : List Text} {s s' : Scan} {n m : ℕ} (hm : n ≤ m)
    (h : scanLoop t n first pf s = some s') : scanLoop t m first pf s = some s' := by
  induction n generalizing first pf s m with
  | zero => cases h
  | succ n ih =>
    obtain ⟨m, rfl⟩ : ∃ k, m = k + 1 := ⟨m - 1, by omega⟩
    rw [scanLoop] at h ⊢
    split_ifs at h ⊢
    · exact h
    · exact ih (by omega) h

theorem exists_scanned (t : ModuleTree) (requiredModules : List Text) :
    ∃ s, scanLoop t ((scanNames t requiredModules).length + 1) true requiredModules noScan = some s ∧ Tallied t s := by
  apply exists_scanLoop ⟨List.nodup_nil, List.nil_subset _⟩ ⟨rfl, List.nil_subset _⟩
  · exact fun x hx => List.mem_append_left _ hx
  · exact Nat.lt_succ_self _

theorem scanLoop_eq_scanned {n : ℕ} (hn : (scanNames t requiredModules).length < n) :
    scanLoop t n true requiredModules noScan = some (scanned t requiredModules) := by
  obtain ⟨s, hs, -⟩ := exists_scanned t requiredModules
  rw [scanned, hs]
  exact scanLoop_mono hn hs

theorem scanned_error (t : ModuleTree) (requiredModules : List Text) : (scanned t requiredModules).error =
    (scanned t requiredModules).tmp.any (fun j => (t.getDeps j).isNone) := by
  obtain ⟨s, hs, htallied⟩ := exists_scanned t requiredModules
  rw [scanned, hs]
  exact htallied.error

theorem scanRound_later_olist (pf : List Text) (s : Scan) : (scanRound t false pf s).olist = s.olist := by
  have hmodule : ∀ (s : Scan) (j : Text), (scanModule t false s j).olist = s.olist := by
    intro s j
    unfold scanModule
    cases t.testR j <;> cases s.tmp.any (dotMatch j) <;> cases t.getDeps j <;> rfl
  have hfold : ∀ (js : List Text) (s : Scan), (js.foldl (scanModule t false) s).olist = s.olist := by
    intro js
    induction js with
    | nil => exact fun s => rfl
    | cons j js ih => exact fun s => (ih _).trans (hmodule s j)
  rw [scanRound_later, hfold]

theorem scanLoop_later_olist {pf : List Text} {s s' : Scan} {n : ℕ} (h : scanLoop t n false pf s = some s') :
    s'.olist = s.olist := by
  induction n generalizing pf s with
  | zero => cases h
  | succ n ih =>
    rw [scanLoop] at h
    split_ifs at h
    · obtain rfl := Option.some.inj h
      exact scanRound_later_olist pf s
    · exact (ih h).trans (scanRound_later_olist pf s)

theorem scanned_olist (t : ModuleTree) (requiredModules : List Text) :
    (scanned t requiredModules).olist = (firstTmp t requiredModules).map moduleName := by
  obtain ⟨s, hs, -⟩ := exists_scanned t requiredModules
  have holist : (firstScan t requiredModules).olist = (firstTmp t requiredModules).map moduleName := by
    rw [gathered_firstScan.olist, firstScan_tmp]
  rw [scanned, hs, Option.getD_some, ← holist]
  rw [scanLoop] at hs
  split_ifs at hs
  · obtain rfl := Option.some.inj hs
    rfl
  · exact scanLoop_later_olist hs

end CgxLayer.Ramdisk

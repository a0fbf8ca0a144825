import CgxLayer.Ramdisk.Modules

namespace CgxLayer.Ramdisk

open Text ModuleTree

variable (t : ModuleTree)

def ModuleTree.loadable (m : Text) : Bool := t.isModule m && t.readable m

def FirstLevel (requiredModules : List Text) (m : Text) : Prop :=
  t.loadable m = true ∧ ∃ i ∈ requiredModules, pathMatch i m = true

def Depends (m d : Text) : Prop := ∃ e ∈ t.entries, e.key = m ∧ d ∈ e.deps

inductive Needed (requiredModules : List Text) : Text → Prop where
  | matched {m : Text} : FirstLevel t requiredModules m → Needed requiredModules m
  | depends {m d : Text} : Needed requiredModules m → Depends t m d → t.loadable d = true →
      Needed requiredModules d

variable {t} in
theorem Needed.loadable {requiredModules : List Text} {m : Text} (h : Needed t requiredModules m) :
    t.loadable m = true := by
  cases h with
  | matched hm => exact hm.1
  | depends _ _ hd => exact hd

def firstWords (requiredModules : List Text) : List Text := requiredModules.flatMap (t.expand true)

def addName (tmp : List Text) (j : Text) : List Text :=
  if t.testR j && !tmp.any (dotMatch j) then tmp ++ [j] else tmp

def depsOf (j : Text) : List Text := (t.getDeps j).getD []

variable {t}

theorem scanModule_tmp (first : Bool) (s : Scan) (j : Text) :
    (scanModule t first s j).tmp = addName t s.tmp j := by
  unfold scanModule addName
  cases t.testR j <;> cases s.tmp.any (dotMatch j) <;> cases t.getDeps j <;> rfl

theorem foldl_scanModule_tmp (first : Bool) (js : List Text) (s : Scan) :
    (js.foldl (scanModule t first) s).tmp = js.foldl (addName t) s.tmp := by
  induction js generalizing s with
  | nil => rfl
  | cons j js ih => rw [List.foldl_cons, List.foldl_cons, ih, scanModule_tmp]

structure Gathered (t : ModuleTree) (s : Scan) : Prop where
  new : s.new = s.tmp.flatMap (depsOf t)
  olist : s.olist = s.tmp.map moduleName

theorem gathered_scanModule {s : Scan} (h : Gathered t s) (j : Text) :
    Gathered t (scanModule t true s j) := by
  unfold scanModule
  cases t.testR j <;> cases s.tmp.any (dotMatch j) <;> cases hj : t.getDeps j <;>
    first
    | exact h
    | exact ⟨by simp [h.new, depsOf, hj], by simp [h.olist]⟩

theorem gathered_foldl (js : List Text) {s : Scan} (h : Gathered t s) :
    Gathered t (js.foldl (scanModule t true) s) := by
  induction js generalizing s with
  | nil => exact h
  | cons j js ih => exact ih (gathered_scanModule h j)

theorem scanRound_eq (first : Bool) (pf : List Text) (s : Scan) : scanRound t first pf s =
    (pf.flatMap (t.expand first)).foldl (scanModule t first) { s with new := [] } := by
  rw [scanRound, List.foldl_flatMap]

theorem mem_addName_iff {tmp : List Text} {j x : Text} : x ∈ addName t tmp j ↔
    x ∈ tmp ∨ x = j ∧ t.testR j = true ∧ ∀ l ∈ tmp, dotMatch j l = false := by
  have hnone : tmp.any (dotMatch j) = false ↔ ∀ l ∈ tmp, dotMatch j l = false := by
    simp [List.any_eq_false]
  unfold addName
  rw [← hnone]
  cases t.testR j <;> cases tmp.any (dotMatch j) <;> simp

theorem mem_addName {tmp : List Text} {j x : Text} (h : x ∈ addName t tmp j) :
    x ∈ tmp ∨ x = j ∧ t.testR j = true :=
  (mem_addName_iff.mp h).imp_right (fun hx => ⟨hx.1, hx.2.1⟩)

theorem mem_foldl_addName {js tmp : List Text} {x : Text} (h : x ∈ js.foldl (addName t) tmp) :
    x ∈ tmp ∨ x ∈ js ∧ t.testR x = true := by
  induction js generalizing tmp with
  | nil => exact .inl h
  | cons j js ih =>
    rcases ih h with h | ⟨hx, hr⟩
    · rcases mem_addName h with h | ⟨rfl, hr⟩
      · exact .inl h
      · exact .inr ⟨List.mem_cons_self .., hr⟩
    · exact .inr ⟨List.mem_cons_of_mem _ hx, hr⟩

variable {q : Text → Prop}

theorem exists_of_mem_expand {i x : Text} (h : x ∈ t.expand true i) : ∃ m, x = t.pfx ++ m := by
  simp only [expand, if_true] at h
  split_ifs at h
  · exact ⟨i, List.mem_singleton.mp h⟩
  · obtain ⟨m, -, rfl⟩ := List.mem_map.mp h
    exact ⟨m, rfl⟩

variable {requiredModules : List Text}

theorem exists_of_mem_firstWords {x : Text} (h : x ∈ firstWords t requiredModules) :
    ∃ m, x = t.pfx ++ m := by
  obtain ⟨i, -, hx⟩ := List.mem_flatMap.mp h
  exact exists_of_mem_expand hx

def firstTmp (t : ModuleTree) (requiredModules : List Text) : List Text :=
  (firstWords t requiredModules).foldl (addName t) []

theorem mem_firstTmp {x : Text} (h : x ∈ firstTmp t requiredModules) :
    ∃ m, x = t.pfx ++ m ∧ t.readable m = true ∧ x ∈ firstWords t requiredModules := by
  rcases mem_foldl_addName h with h | ⟨h, hr⟩
  · cases h
  · obtain ⟨m, rfl⟩ := exists_of_mem_firstWords h
    rw [testR_pfx] at hr
    exact ⟨m, rfl, hr, h⟩

def firstScan (t : ModuleTree) (requiredModules : List Text) : Scan :=
  scanRound t true requiredModules ⟨[], [], [], false⟩

theorem firstScan_tmp : (firstScan t requiredModules).tmp = firstTmp t requiredModules := by
  rw [firstScan, scanRound_eq, foldl_scanModule_tmp]
  rfl

theorem gathered_firstScan : Gathered t (firstScan t requiredModules) := by
  rw [firstScan, scanRound_eq]
  exact gathered_foldl _ ⟨rfl, rfl⟩

theorem scanRound_later (pf : List Text) (s : Scan) :
    scanRound t false pf s = pf.foldl (scanModule t false) { s with new := [] } := by
  have hwords : pf.flatMap (t.expand false) = pf := by
    change pf.flatMap (fun i => [i]) = pf
    exact List.flatMap_singleton' pf
  rw [scanRound_eq, hwords]

theorem relative_scanModule {first : Bool} {s : Scan} {j : Text} (h : ∀ k ∈ s.new, Relative k) :
    ∀ k ∈ (scanModule t first s j).new, Relative k := by
  unfold scanModule
  cases t.testR j <;> cases s.tmp.any (dotMatch j) <;> cases hj : t.getDeps j <;> try exact h
  intro k hk
  rcases List.mem_append.mp hk with hk | hk
  · exact h k hk
  · exact getDeps_relative hj hk

theorem relative_scanRound (first : Bool) (pf : List Text) (s : Scan) :
    ∀ k ∈ (scanRound t first pf s).new, Relative k := by
  have hfold : ∀ (js : List Text) (s : Scan), (∀ k ∈ s.new, Relative k) →
      ∀ k ∈ (js.foldl (scanModule t first) s).new, Relative k := by
    intro js
    induction js with
    | nil => exact fun s h => h
    | cons j js ih => exact fun s h => ih _ (relative_scanModule h)
  rw [scanRound_eq]
  exact hfold _ _ (by simp)

theorem exists_line_of_mem_depsOf {m w : Text} (hw : w ∈ depsOf t (t.pfx ++ m)) :
    ∃ line, t.depLine (t.pfx ++ m) = some line ∧ w ∈ words shBlank line := by
  cases hline : t.depLine (t.pfx ++ m) with
  | none => simp [depsOf, getDeps, hline] at hw
  | some line =>
    obtain ⟨e, he, rfl⟩ := depLine_some hline
    rw [depsOf, getDeps_pfx he hline, Option.getD_some, ← (written he).words_line] at hw
    exact ⟨e.line, rfl, hw⟩

theorem scanLoop_idle (fuel : ℕ) {pf : List Text} {s : Scan} (hpf : ∀ i ∈ pf, Relative i)
    (hhere : ∀ i ∈ pf, t.here i = false) :
    scanLoop t (fuel + 1) false pf s = some { s with new := [] } := by
  have hskip : ∀ s : Scan, pf.foldl (scanModule t false) s = s := by
    intro s
    induction pf with
    | nil => rfl
    | cons i pf ih =>
      have htest : t.testR i = false := by
        rw [testR_relative (hpf i (List.mem_cons_self ..)), hhere i (List.mem_cons_self ..)]
      have hi : scanModule t false s i = s := by simp [scanModule, htest]
      rw [List.foldl_cons, hi]
      exact ih (fun k hk => hpf k (List.mem_cons_of_mem _ hk)) (fun k hk => hhere k (List.mem_cons_of_mem _ hk))
  simp [scanLoop, scanRound_later, hskip]

theorem copyKernelModules_idle (hhere : ∀ k ∈ (firstScan t requiredModules).new, t.here k = false)
    {fuel : ℕ} (hfuel : 2 ≤ fuel) : copyKernelModules t fuel requiredModules =
      some (sortUniq (firstTmp t requiredModules), (firstTmp t requiredModules).map moduleName) := by
  obtain ⟨n, rfl⟩ : ∃ n, fuel = n + 1 + 1 := ⟨fuel - 2, by omega⟩
  have hnew : ∀ k ∈ (firstScan t requiredModules).new, Relative k := relative_scanRound _ _ _
  have hloop : ∃ s, scanLoop t (n + 1 + 1) true requiredModules ⟨[], [], [], false⟩ = some s ∧
      s.tmp = firstTmp t requiredModules ∧ s.olist = (firstTmp t requiredModules).map moduleName := by
    rw [← firstScan_tmp, ← gathered_firstScan.olist, scanLoop]
    change ∃ s, (if (firstScan t requiredModules).new.isEmpty then some (firstScan t requiredModules)
      else scanLoop t (n + 1) false (firstScan t requiredModules).new (firstScan t requiredModules)) = some s ∧ _
    split_ifs
    · exact ⟨_, rfl, rfl, rfl⟩
    · exact ⟨_, scanLoop_idle n hnew hhere, rfl, rfl⟩
  obtain ⟨s, hs, htmp, holist⟩ := hloop
  rw [copyKernelModules, hs, Option.map_some, htmp, holist]

theorem exists_line_of_mem_new {w : Text} (h : w ∈ (firstScan t requiredModules).new) :
    ∃ m line, t.pfx ++ m ∈ firstTmp t requiredModules ∧ t.depLine (t.pfx ++ m) = some line ∧
      w ∈ words shBlank line := by
  rw [gathered_firstScan.new, firstScan_tmp, List.mem_flatMap] at h
  obtain ⟨x, hx, hw⟩ := h
  obtain ⟨m, rfl, -⟩ := mem_firstTmp hx
  obtain ⟨line, hline, hw⟩ := exists_line_of_mem_depsOf hw
  exact ⟨m, line, hx, hline, hw⟩

theorem firstTmp_here (here : Text → Bool) :
    firstTmp { t with here := here } requiredModules = firstTmp t requiredModules := by
  let u : ModuleTree := { t with here := here }
  apply List.foldl_ext (addName u) (addName t) []
  intro tmp x hx
  obtain ⟨m, rfl⟩ := exists_of_mem_firstWords (t := t) hx
  have htest : u.testR (t.pfx ++ m) = t.testR (t.pfx ++ m) := by
    rw [testR_pfx]
    exact testR_pfx (t := u) m
  rw [addName, addName, htest]

def ext4 : Text := "kernel/fs/ext4/ext4.ko".toList

def jbd2 : Text := "kernel/fs/jbd2/jbd2.ko".toList

theorem isPath_ext4 : IsPath ext4 := ⟨by decide, 'k', _, rfl, by decide⟩

theorem isPath_jbd2 : IsPath jbd2 := ⟨by decide, 'k', _, rfl, by decide⟩

def ext4Tree : ModuleTree where
  ver := "5.10".toList
  names := [ext4, jbd2]
  isModule := fun m => m ∈ [ext4, jbd2]
  readable := fun m => m ∈ [[], ext4, jbd2]
  entries := [⟨ext4, [jbd2]⟩, ⟨jbd2, []⟩]
  here := fun _ => false
  ver_plain := by decide
  names_plain := by decide
  modules_named := fun n hn => of_decide_eq_true hn
  readable_plain := by
    intro n hn
    have hplain : ∀ n ∈ [[], ext4, jbd2], ∀ c ∈ n, plainChar c = true := by decide
    exact hplain n (of_decide_eq_true hn)
  entries_path := by
    intro e he
    rcases List.mem_pair.mp he with rfl | rfl
    · exact ⟨isPath_ext4, fun d hd => List.mem_singleton.mp hd ▸ isPath_jbd2⟩
    · exact ⟨isPath_jbd2, fun d hd => absurd hd List.not_mem_nil⟩
  keys_nodup := by decide

end CgxLayer.Ramdisk

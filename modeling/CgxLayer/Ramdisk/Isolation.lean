import CgxLayer.Ramdisk.BuildDir

namespace CgxLayer.Ramdisk

open Text ModuleTree

variable (host : Host)

def HasModules (k : Text) : Prop := host.modules (kernelVer k) ≠ none

def modprobeList (tree : ModuleTree) : List Text := (firstTmp tree host.requiredModules).map moduleName

def firmwareOf (k : Text) : List (List Text) :=
  match host.modules (kernelVer k) with
  | none => []
  | some tree => (firmwareNames host (kernelVer k) (modprobeList host tree)).map pathOf

/-- Where the script is started without a modules.dep at hand, a kernel without one comes before all
kernels with one. Where there is one, no kernel has its own, or all have and ask for one firmware. -/
structure Separate (kernels : List Text) : Prop where
  modules : host.here modulesDep = false → kernels.Pairwise (fun j k => HasModules host j → HasModules host k)
  firmware : host.here modulesDep = true → (∀ k ∈ kernels, ¬ HasModules host k) ∨
    ((∀ k ∈ kernels, HasModules host k) ∧
      ∀ j ∈ kernels, ∀ k ∈ kernels, ∀ p, p ∈ firmwareOf host j ↔ p ∈ firmwareOf host k)

def loaded (k : Text) (t : BuildTree) : BuildTree :=
  match host.modules (kernelVer k) with
  | none => t
  | some tree => installModules host true (kernelVer k) (sortUniq (firstTmp tree host.requiredModules))
      (modprobeList host tree) (t.put olistPath [])

def passed (k : Text) (t : BuildTree) : BuildTree := genInit host (loaded host k t)

def withFirmware (k : Text) (t : BuildTree) : BuildTree :=
  (t.remove firmwarePath).copyAll host.content (firmwareOf host k)

def Clean (t : BuildTree) : Prop := ∀ q : List Text, q.head? ∉ loopNames → t q = host.base q

/-- The trees differ in nothing that survives the modules and the init of a kernel. -/
structure SameRest (t t' : BuildTree) : Prop where
  lib : (t libPath).getD .dir = (t' libPath).getD .dir
  rest : ∀ q, ¬ modulesPath <+: q → q ≠ olistPath → q ≠ initPath → q ≠ libPath → t q = t' q

variable {host} {k : Text} {t t' : BuildTree} {tree : ModuleTree} {q : List Text}

theorem underModules_firstTmp (req : List Text) : UnderModules (sortUniq (firstTmp tree req)) := by
  intro x hx
  obtain ⟨m, rfl, -⟩ := mem_firstTmp (mem_sortUniq.mp hx)
  exact ⟨tree.ver ++ ['/'] ++ m, by rw [pfx, List.append_assoc]⟩

theorem loaded_none (h : host.modules (kernelVer k) = none) (t : BuildTree) : loaded host k t = t := by
  simp only [loaded, h]

theorem loaded_some (h : host.modules (kernelVer k) = some tree) (t : BuildTree) : loaded host k t =
    installModules host true (kernelVer k) (sortUniq (firstTmp tree host.requiredModules))
      (modprobeList host tree) (t.put olistPath []) := by
  simp only [loaded, h]

theorem loaded_outside (h : host.modules (kernelVer k) = some tree) (hq : ¬ modulesPath <+: q) :
    loaded host k t q = if q = olistPath then some (.file (modprobeList host tree))
      else if q = libPath then some ((t q).getD .dir) else t q := by
  rw [loaded_some h, installModules_outside (underModules_firstTmp _) hq]
  by_cases hlist : q = olistPath
  · rw [if_pos hlist, if_pos hlist]
  · have hput : t.put olistPath [] q = t q := if_neg hlist
    rw [if_neg hlist, if_neg hlist, hput]

theorem loaded_region (h : host.modules (kernelVer k) = some tree) (hq : modulesPath <+: q) :
    loaded host k t q = loaded host k t' q := by
  rw [loaded_some h, loaded_some h]
  exact installModules_region (underModules_firstTmp _) hq

theorem libPath_outside : ¬ modulesPath <+: libPath ∧ libPath ≠ olistPath ∧ libPath ≠ initPath := by decide

theorem olistPath_outside : ¬ modulesPath <+: olistPath ∧ olistPath ≠ initPath := by decide

theorem genInit_of_ne (t : BuildTree) (h : q ≠ initPath) : genInit host t q = t q := if_neg h

theorem genInit_init (t : BuildTree) : genInit host t initPath = some (.file host.initTemplate) := by
  rw [genInit, FileTree.put, if_pos rfl]

theorem genInit_genInit (t : BuildTree) : genInit host (genInit host t) = genInit host t := by
  funext q
  by_cases h : q = initPath
  · rw [h, genInit_init, genInit_init]
  · exact genInit_of_ne _ h

theorem SameRest.refl (t : BuildTree) : SameRest t t := ⟨rfl, fun _ _ _ _ _ => rfl⟩

theorem SameRest.trans {u : BuildTree} (h : SameRest t t') (h' : SameRest t' u) : SameRest t u :=
  ⟨h.lib.trans h'.lib,
    fun q hq hlist hinit hlib => (h.rest q hq hlist hinit hlib).trans (h'.rest q hq hlist hinit hlib)⟩

theorem sameRest_loaded (k : Text) (t : BuildTree) : SameRest (loaded host k t) t := by
  cases h : host.modules (kernelVer k) with
  | none =>
    rw [loaded_none h]
    exact .refl t
  | some tree =>
    refine ⟨?_, fun q hq hlist _ hlib => ?_⟩
    · rw [loaded_outside h libPath_outside.1, if_neg libPath_outside.2.1, if_pos rfl]
      rfl
    · rw [loaded_outside h hq, if_neg hlist, if_neg hlib]

theorem sameRest_genInit (t : BuildTree) : SameRest (genInit host t) t :=
  ⟨by rw [genInit_of_ne t libPath_outside.2.2], fun _ _ _ hinit _ => genInit_of_ne t hinit⟩

theorem sameRest_passed (k : Text) (t : BuildTree) : SameRest (passed host k t) t :=
  (sameRest_genInit _).trans (sameRest_loaded k t)

theorem outside_of_head (hq : q.head? ∉ loopNames) :
    ¬ modulesPath <+: q ∧ q ≠ olistPath ∧ q ≠ initPath ∧ q ≠ libPath := by
  refine ⟨?_, ?_, ?_, ?_⟩
  · rintro ⟨s, rfl⟩
    have hlib : some "lib".toList ∈ loopNames := by decide
    exact hq hlib
  · rintro rfl
    exact hq (by decide)
  · rintro rfl
    exact hq (by decide)
  · rintro rfl
    exact hq (by decide)

theorem SameRest.clean (h : SameRest t t') (h' : Clean host t') : Clean host t := by
  intro q hq
  obtain ⟨hregion, hlist, hinit, hlib⟩ := outside_of_head hq
  exact (h.rest q hregion hlist hinit hlib).trans (h' q hq)

theorem clean_base (host : Host) : Clean host host.base := fun _ _ => rfl

theorem passed_congr (hk : HasModules host k) (h : SameRest t t') : passed host k t = passed host k t' := by
  obtain ⟨tree, htree⟩ := Option.ne_none_iff_exists'.mp hk
  funext q
  by_cases hinit : q = initPath
  · rw [hinit, passed, passed, genInit_init, genInit_init]
  · rw [passed, passed, genInit_of_ne _ hinit, genInit_of_ne _ hinit]
    by_cases hq : modulesPath <+: q
    · exact loaded_region htree hq
    · rw [loaded_outside htree hq, loaded_outside htree hq]
      by_cases hlist : q = olistPath
      · rw [if_pos hlist, if_pos hlist]
      · by_cases hlib : q = libPath
        · rw [if_neg hlist, if_neg hlist, if_pos hlib, if_pos hlib, hlib, h.lib]
        · rw [if_neg hlist, if_neg hlist, if_neg hlib, if_neg hlib, h.rest q hq hlist hinit hlib]

theorem passed_of_not_hasModules (hk : ¬ HasModules host k) (t : BuildTree) :
    passed host k t = genInit host t := by
  rw [passed, loaded_none (not_not.mp hk)]

theorem passed_olist (hk : HasModules host k) (t : BuildTree) : passed host k t olistPath ≠ none := by
  obtain ⟨tree, htree⟩ := Option.ne_none_iff_exists'.mp hk
  rw [passed, genInit_of_ne _ olistPath_outside.2, loaded_outside htree olistPath_outside.1, if_pos rfl]
  exact Option.some_ne_none _

variable {rounds : ℕ}

theorem copyModules_eq (hr : 2 ≤ rounds) (first : Bool) (h : first = false → Clean host t) :
    copyModules host rounds first (kernelVer k) t = some (loaded host k t) := by
  cases htree : host.modules (kernelVer k) with
  | none => rw [copyModules, htree, loaded_none htree]
  | some tree =>
    let here := if first then host.here else fun w => (t.put olistPath [] (pathOf w)).isSome
    have hhere : ∀ e ∈ tree.entries, ∀ w ∈ words shBlank e.line, here w = false := by
      intro e he w hw
      obtain ⟨hstart, hbase, hhead⟩ := host.not_here _ _ htree e he w hw
      cases first with
      | true => exact hstart
      | false =>
        have hput : t.put olistPath [] (pathOf w) = none := by
          rw [FileTree.put, if_neg (outside_of_head hhead).2.1, h rfl _ hhead, hbase]
        change (t.put olistPath [] (pathOf w)).isSome = false
        rw [hput]
        rfl
    have hidle : copyKernelModules { tree with here := here } rounds host.requiredModules =
        some (sortUniq (firstTmp tree host.requiredModules), modprobeList host tree) := by
      rw [copyKernelModules_idle _ hr, firstTmp_here]
      · rfl
      · intro w hw
        obtain ⟨m, line, -, hline, hmem⟩ := exists_line_of_mem_new hw
        obtain ⟨e, he, rfl⟩ := depLine_some hline
        exact hhere e he w hmem
    have hlists : copyModules host rounds first (kernelVer k) t =
        (copyKernelModules { tree with here := here } rounds host.requiredModules).map (fun lists =>
          installModules host first (kernelVer k) lists.1 lists.2 (t.put olistPath [])) := by
      simp only [copyModules, htree]
      rfl
    rw [hlists, hidle, Option.map_some, loaded_some htree]
    congr 1
    funext q
    by_cases hq : modulesPath <+: q
    · exact installModules_region (underModules_firstTmp _) hq
    · rw [installModules_outside (underModules_firstTmp _) hq,
        installModules_outside (underModules_firstTmp _) hq]

theorem kernelPass_later (hr : 2 ≤ rounds) (h : Clean host t) :
    kernelPass host rounds false k t = some (passed host k t) := by
  have hclean : Clean host (loaded host k t) := (sameRest_loaded k t).clean h
  have hdep : loaded host k t (pathOf modulesDep) = none :=
    (hclean _ (by decide)).trans host.base_modulesDep
  rw [kernelPass, copyModules_eq hr false (fun _ => h), Option.bind_some, copyFirmware]
  simp only [hdep]
  rfl

theorem kernelPass_first (hr : 2 ≤ rounds) (hdep : host.here modulesDep = false) (k : Text) :
    kernelPass host rounds true k host.base = some (passed host k host.base) := by
  rw [kernelPass, copyModules_eq hr true (fun h => by cases h), Option.bind_some, copyFirmware]
  simp only [hdep]
  rfl

theorem kernelPass_firmware (hr : 2 ≤ rounds) (hdep : host.here modulesDep = true) (k : Text) :
    kernelPass host rounds true k host.base = match host.modules (kernelVer k) with
      | none => none
      | some _ => some (genInit host (withFirmware host k (loaded host k host.base))) := by
  rw [kernelPass, copyModules_eq hr true (fun h => by cases h), Option.bind_some, copyFirmware]
  cases htree : host.modules (kernelVer k) with
  | none =>
    rw [loaded_none htree]
    simp only [hdep, host.base_olist]
    rfl
  | some tree =>
    have hlist : loaded host k host.base olistPath = some (.file (modprobeList host tree)) := by
      rw [loaded_outside htree olistPath_outside.1, if_pos rfl]
    simp only [hdep, hlist, withFirmware, firmwareOf, htree]
    rfl

theorem mvmkramdisk_single (k : Text) :
    mvmkramdisk host rounds [k] = [kernelPass host rounds true k host.base] := by
  rw [mvmkramdisk, initrds]
  cases kernelPass host rounds true k host.base <;> rfl

theorem initrds_cons_some {first : Bool} {u : BuildTree} (h : kernelPass host rounds first k t = some u)
    (ks : List Text) :
    initrds host rounds first t (k :: ks) = some u :: initrds host rounds false u ks := by
  rw [initrds, h]

theorem initrds_cons_none {first : Bool} (h : kernelPass host rounds first k t = none) (ks : List Text) :
    initrds host rounds first t (k :: ks) = none :: ks.map (fun _ => none) := by
  rw [initrds, h]

theorem initrds_later_iff (hr : 2 ≤ rounds) {alone : Text → Option BuildTree}
    (halone : ∀ k u, ¬ HasModules host k → alone k = some u → u olistPath = none) (t₀ : BuildTree)
    (ks : List Text) (hclean : Clean host t) (hrest : SameRest t t₀) (hlist : t olistPath ≠ none) :
    initrds host rounds false t ks = ks.map alone ↔
      ∀ k ∈ ks, HasModules host k ∧ some (passed host k t₀) = alone k := by
  induction ks generalizing t with
  | nil => simp [initrds]
  | cons k ks ih =>
    have hstep : SameRest (passed host k t) t := sameRest_passed k t
    rw [initrds_cons_some (kernelPass_later hr hclean), List.map_cons, List.cons.injEq, List.forall_mem_cons]
    by_cases hk : HasModules host k
    · rw [ih (hstep.clean hclean) (hstep.trans hrest) (passed_olist hk t), passed_congr hk hrest,
        and_iff_right hk]
    · have hkept : passed host k t olistPath ≠ none := by
        rw [passed_of_not_hasModules hk, genInit_of_ne _ olistPath_outside.2]
        exact hlist
      constructor
      · rintro ⟨heq, -⟩
        exact absurd (halone k _ hk heq.symm) hkept
      · rintro ⟨⟨hmodules, -⟩, -⟩
        exact absurd hmodules hk

theorem initrds_iff_pairwise (hr : 2 ≤ rounds) (ks : List Text) (hclean : Clean host t)
    (hrest : SameRest t host.base) (hinit : genInit host t = genInit host host.base) :
    initrds host rounds false t ks = ks.map (fun k => some (passed host k host.base)) ↔
      ks.Pairwise (fun j k => HasModules host j → HasModules host k) := by
  induction ks generalizing t with
  | nil => simp [initrds]
  | cons k ks ih =>
    have hstep : SameRest (passed host k t) t := sameRest_passed k t
    rw [initrds_cons_some (kernelPass_later hr hclean), List.map_cons, List.cons.injEq, List.pairwise_cons]
    by_cases hk : HasModules host k
    · have hbare : ∀ k u, ¬ HasModules host k → some (passed host k host.base) = some u → u olistPath = none := by
        intro k u hk hu
        rw [← Option.some.inj hu, passed_of_not_hasModules hk, genInit_of_ne _ olistPath_outside.2, host.base_olist]
      rw [initrds_later_iff hr hbare host.base ks (hstep.clean hclean) (hstep.trans hrest) (passed_olist hk t),
        passed_congr hk hrest, and_iff_right rfl]
      constructor
      · intro h
        refine ⟨fun j hj _ => (h j hj).1, ?_⟩
        apply List.Pairwise.imp_of_mem _ (List.pairwise_of_forall (fun _ _ => trivial))
        exact fun _ hj _ _ => (h _ hj).1
      · intro h j hj
        exact ⟨h.1 j hj hk, rfl⟩
    · have hsame : passed host k t = passed host k host.base := by
        rw [passed_of_not_hasModules hk, passed_of_not_hasModules hk, hinit]
      have hagain : genInit host (passed host k t) = genInit host host.base := by
        rw [passed_of_not_hasModules hk, genInit_genInit, hinit]
      rw [ih (hstep.clean hclean) (hstep.trans hrest) hagain, hsame, and_iff_right rfl]
      constructor
      · exact fun h => ⟨fun _ _ hmodules => absurd hmodules hk, h⟩
      · exact fun h => h.2

theorem firmwarePath_outside (h : firmwarePath <+: q) :
    ¬ modulesPath <+: q ∧ q ≠ olistPath ∧ q ≠ initPath ∧ q ≠ libPath := by
  obtain ⟨s, rfl⟩ := h
  have hne : "modules".toList ≠ "firmware".toList := by decide
  refine ⟨?_, ?_, ?_, ?_⟩
  · rintro ⟨r, hr⟩
    exact hne (List.cons.inj (List.cons.inj hr).2).1
  · exact fun hq => absurd (List.cons.inj hq).2 (List.cons_ne_nil _ _)
  · exact fun hq => absurd (List.cons.inj hq).2 (List.cons_ne_nil _ _)
  · exact fun hq => absurd (List.cons.inj hq).2 (List.cons_ne_nil _ _)

theorem firmwareOf_path {p : List Text} (h : p ∈ firmwareOf host k) : firmwarePath <+: p := by
  unfold firmwareOf at h
  split at h
  · exact absurd h List.not_mem_nil
  · obtain ⟨name, hname, rfl⟩ := List.mem_map.mp h
    obtain ⟨modname, -, hname⟩ := List.mem_flatMap.mp hname
    obtain ⟨pattern, -, hname⟩ := List.mem_flatMap.mp hname
    obtain ⟨f, -, rfl⟩ := List.mem_map.mp hname
    rw [pathOf_firmwareDir]
    exact List.prefix_append _ _

theorem withFirmware_outside (hlib : t libPath ≠ none) (hq : ¬ firmwarePath <+: q) :
    withFirmware host k t q = t q := by
  have hremove : t.remove firmwarePath q = t q := if_neg hq
  have hmem : q ∉ firmwareOf host k := fun h => hq (firmwareOf_path h)
  rw [withFirmware, FileTree.copyAll_apply, if_neg hmem, hremove, if_neg]
  rintro ⟨hnone, hnil, p, hp, hpre⟩
  obtain ⟨s, rfl⟩ := firmwareOf_path hp
  rcases List.prefix_or_prefix_of_prefix (hpre.trans (List.dropLast_prefix _)) (List.prefix_append firmwarePath s)
    with h | h
  · rcases List.prefix_cons_iff.mp h with rfl | ⟨r, rfl, hr⟩
    · exact hnil rfl
    · rcases List.prefix_cons_iff.mp hr with rfl | ⟨r', rfl, hr'⟩
      · exact hlib hnone
      · rw [List.prefix_nil.mp hr'] at hq
        exact hq (List.prefix_refl _)
  · exact hq h

theorem withFirmware_iff_mem (t : BuildTree) {p : List Text} (hp : firmwarePath <+: p) :
    withFirmware host k t p = some (.file (host.content p)) ↔ p ∈ firmwareOf host k := by
  constructor
  · exact FileTree.mem_of_copyAll (if_pos hp)
  · exact FileTree.copyAll_of_mem _ _

theorem loaded_libPath (hk : HasModules host k) (t : BuildTree) : loaded host k t libPath ≠ none := by
  obtain ⟨tree, htree⟩ := Option.ne_none_iff_exists'.mp hk
  rw [loaded_outside htree libPath_outside.1, if_neg libPath_outside.2.1, if_pos rfl]
  exact Option.some_ne_none _

def firstWithFirmware (host : Host) (k : Text) : BuildTree :=
  genInit host (withFirmware host k (loaded host k host.base))

theorem firstWithFirmware_outside (hk : HasModules host k) (hq : ¬ firmwarePath <+: q) :
    firstWithFirmware host k q = passed host k host.base q := by
  by_cases hinit : q = initPath
  · rw [hinit, firstWithFirmware, passed, genInit_init, genInit_init]
  · rw [firstWithFirmware, passed, genInit_of_ne _ hinit, genInit_of_ne _ hinit,
      withFirmware_outside (loaded_libPath hk _) hq]

theorem firstWithFirmware_firmware (hq : firmwarePath <+: q) :
    firstWithFirmware host k q = withFirmware host k (loaded host k host.base) q :=
  genInit_of_ne _ (firmwarePath_outside hq).2.2.1

theorem passed_firmware (hq : firmwarePath <+: q) (t : BuildTree) : passed host k t q = t q := by
  obtain ⟨hregion, hlist, hinit, hlib⟩ := firmwarePath_outside hq
  exact (sameRest_passed k t).rest q hregion hlist hinit hlib

theorem passed_firstWithFirmware_iff {j : Text} (hj : HasModules host j) (hk : HasModules host k) :
    passed host k (firstWithFirmware host j) = firstWithFirmware host k ↔
      ∀ p, p ∈ firmwareOf host j ↔ p ∈ firmwareOf host k := by
  constructor
  · intro h p
    by_cases hp : firmwarePath <+: p
    · have hpoint := congrFun h p
      rw [passed_firmware hp, firstWithFirmware_firmware hp, firstWithFirmware_firmware hp] at hpoint
      rw [← withFirmware_iff_mem (loaded host j host.base) hp,
        ← withFirmware_iff_mem (loaded host k host.base) hp, hpoint]
    · exact iff_of_false (fun h => hp (firmwareOf_path h)) (fun h => hp (firmwareOf_path h))
  · intro h
    funext q
    by_cases hq : firmwarePath <+: q
    · rw [passed_firmware hq, firstWithFirmware_firmware hq, firstWithFirmware_firmware hq]
      exact FileTree.copyAll_congr _ h ((if_pos hq).trans (if_pos hq).symm)
    · have hbase : passed host k (passed host j host.base) = passed host k host.base :=
        passed_congr hk (sameRest_passed j host.base)
      rw [firstWithFirmware_outside hk hq, ← hbase]
      by_cases hinit : q = initPath
      · rw [hinit, passed, passed, genInit_init, genInit_init]
      · rw [passed, passed, genInit_of_ne _ hinit, genInit_of_ne _ hinit]
        obtain ⟨tree, htree⟩ := Option.ne_none_iff_exists'.mp hk
        by_cases hregion : modulesPath <+: q
        · exact loaded_region htree hregion
        · rw [loaded_outside htree hregion, loaded_outside htree hregion, firstWithFirmware_outside hj hq]

theorem isolated_iff_rounds (kernels : List Text) {P : Prop}
    (h : ∀ rounds, 2 ≤ rounds → (initrds host rounds true host.base kernels =
      kernels.map (fun k => kernelPass host rounds true k host.base) ↔ P)) : Isolated host kernels ↔ P := by
  have hsingle : ∀ rounds, kernels.flatMap (fun k => mvmkramdisk host rounds [k]) =
      kernels.map (fun k => kernelPass host rounds true k host.base) := by
    intro rounds
    simp only [mvmkramdisk_single]
    exact List.flatMap_pure_eq_map _ _
  constructor
  · rintro ⟨n, hn⟩
    have heq := hn (max n 2) (by omega)
    rw [hsingle] at heq
    exact (h _ (by omega)).mp heq
  · intro hP
    refine ⟨2, fun rounds hr => ?_⟩
    rw [hsingle]
    exact (h rounds hr).mpr hP

theorem isolated_iff_pairwise (hdep : host.here modulesDep = false) (kernels : List Text) :
    Isolated host kernels ↔ kernels.Pairwise (fun j k => HasModules host j → HasModules host k) := by
  apply isolated_iff_rounds
  intro rounds hr
  have hmap : kernels.map (fun k => kernelPass host rounds true k host.base) =
      kernels.map (fun k => some (passed host k host.base)) := by
    simp only [kernelPass_first hr hdep]
  have hstart : initrds host rounds true host.base kernels = initrds host rounds false host.base kernels := by
    cases kernels with
    | nil => rfl
    | cons k ks =>
      rw [initrds_cons_some (kernelPass_first hr hdep k),
        initrds_cons_some (kernelPass_later hr (clean_base host))]
  rw [hmap, hstart]
  exact initrds_iff_pairwise hr kernels (clean_base host) (.refl _) rfl

theorem clean_firstWithFirmware (hk : HasModules host k) : Clean host (firstWithFirmware host k) := by
  intro q hq
  have hlib : ¬ firmwarePath <+: q := by
    rintro ⟨s, rfl⟩
    have hmem : some "lib".toList ∈ loopNames := by decide
    exact hq hmem
  rw [firstWithFirmware_outside hk hlib]
  exact (sameRest_passed k host.base).clean (clean_base host) q hq

theorem firstWithFirmware_olist (hk : HasModules host k) : firstWithFirmware host k olistPath ≠ none := by
  rw [firstWithFirmware_outside hk (by decide)]
  exact passed_olist hk _

theorem kernelPass_none (hr : 2 ≤ rounds) (hdep : host.here modulesDep = true) (hk : ¬ HasModules host k) :
    kernelPass host rounds true k host.base = none := by
  rw [kernelPass_firmware hr hdep, not_not.mp hk]

theorem kernelPass_some (hr : 2 ≤ rounds) (hdep : host.here modulesDep = true) (hk : HasModules host k) :
    kernelPass host rounds true k host.base = some (firstWithFirmware host k) := by
  obtain ⟨tree, htree⟩ := Option.ne_none_iff_exists'.mp hk
  rw [kernelPass_firmware hr hdep, htree]
  rfl

theorem initrds_firmware_iff {j : Text} (hr : 2 ≤ rounds) (hdep : host.here modulesDep = true)
    (hj : HasModules host j) (ks : List Text) :
    initrds host rounds false (firstWithFirmware host j) ks =
        ks.map (fun k => kernelPass host rounds true k host.base) ↔
      ∀ k ∈ ks, HasModules host k ∧ ∀ p, p ∈ firmwareOf host j ↔ p ∈ firmwareOf host k := by
  have hbare : ∀ k u, ¬ HasModules host k → kernelPass host rounds true k host.base = some u →
      u olistPath = none := by
    intro k u hk hu
    rw [kernelPass_none hr hdep hk] at hu
    cases hu
  rw [initrds_later_iff hr hbare _ ks (clean_firstWithFirmware hj) (.refl _) (firstWithFirmware_olist hj)]
  apply forall₂_congr
  intro k _
  apply and_congr_right
  intro hk
  rw [kernelPass_some hr hdep hk, Option.some.injEq, passed_firstWithFirmware_iff hj hk]

theorem isolated_iff_firmware (hdep : host.here modulesDep = true) (kernels : List Text) :
    Isolated host kernels ↔ (∀ k ∈ kernels, ¬ HasModules host k) ∨
      ((∀ k ∈ kernels, HasModules host k) ∧
        ∀ j ∈ kernels, ∀ k ∈ kernels, ∀ p, p ∈ firmwareOf host j ↔ p ∈ firmwareOf host k) := by
  apply isolated_iff_rounds
  intro rounds hr
  cases kernels with
  | nil => simp [initrds]
  | cons j ks =>
    rw [List.map_cons]
    by_cases hj : HasModules host j
    · have hno : ¬ ∀ k ∈ j :: ks, ¬ HasModules host k := fun h => h j (List.mem_cons_self ..) hj
      rw [initrds_cons_some (kernelPass_some hr hdep hj), kernelPass_some hr hdep hj, List.cons.injEq,
        and_iff_right rfl, initrds_firmware_iff hr hdep hj, or_iff_right hno]
      constructor
      · intro h
        have hfirmware : ∀ k ∈ j :: ks, ∀ p, p ∈ firmwareOf host j ↔ p ∈ firmwareOf host k :=
          List.forall_mem_cons.mpr ⟨fun p => Iff.rfl, fun k hk => (h k hk).2⟩
        refine ⟨List.forall_mem_cons.mpr ⟨hj, fun k hk => (h k hk).1⟩, fun i hi k hk p => ?_⟩
        rw [← hfirmware i hi, hfirmware k hk]
      · rintro ⟨hmodules, hfirmware⟩ k hk
        have hmem : k ∈ j :: ks := List.mem_cons_of_mem _ hk
        exact ⟨hmodules k hmem, hfirmware j (List.mem_cons_self ..) k hmem⟩
    · -- the script gives up at the first kernel, and so it must for each of the others alone
      have hno : ¬ ∀ k ∈ j :: ks, HasModules host k := fun h => hj (h j (List.mem_cons_self ..))
      rw [initrds_cons_none (kernelPass_none hr hdep hj), kernelPass_none hr hdep hj, List.cons.injEq,
        and_iff_right rfl, or_iff_left (fun h => hno h.1), List.forall_mem_cons, and_iff_right hj,
        List.map_inj_left]
      apply forall₂_congr
      intro k _
      constructor
      · intro h hk
        rw [kernelPass_some hr hdep hk] at h
        cases h
      · exact fun hk => (kernelPass_none hr hdep hk).symm

theorem Separate.isolated {kernels : List Text} (h : Separate host kernels) : Isolated host kernels := by
  cases hdep : host.here modulesDep with
  | false => exact (isolated_iff_pairwise hdep kernels).mpr (h.modules hdep)
  | true => exact (isolated_iff_firmware hdep kernels).mpr (h.firmware hdep)

theorem isolated_iff_separate (host : Host) (kernels : List Text) :
    Isolated host kernels ↔ Separate host kernels := by
  refine ⟨fun h => ?_, Separate.isolated⟩
  exact ⟨fun hdep => (isolated_iff_pairwise hdep kernels).mp h, fun hdep => (isolated_iff_firmware hdep kernels).mp h⟩

def emptyBase : BuildTree := fun q => if q = [] then some .dir else none

theorem ext4Tree_not_here : ∀ e ∈ ext4Tree.entries, ∀ w ∈ words shBlank e.line,
    emptyBase (pathOf w) = none ∧ (pathOf w).head? ∉ loopNames := by decide

def oneTreeHost : Host where
  modules := fun v => if v = ext4Tree.ver then some ext4Tree else none
  requiredModules := [ext4]
  firmware := []
  isDir := fun _ => false
  content := fun _ => []
  here := fun _ => false
  contentHere := fun _ => []
  depmod := fun _ _ => []
  modinfo := fun _ _ => []
  initTemplate := []
  base := emptyBase
  modules_ver := by
    intro v t h
    split_ifs at h with hv
    rw [← Option.some.inj h, hv]
  base_olist := by decide
  base_modulesDep := by decide
  not_here := by
    intro v t h e he w hw
    split_ifs at h
    obtain rfl := Option.some.inj h
    exact ⟨rfl, ext4Tree_not_here e he w hw⟩

theorem earlier_modules_kept :
    ¬ Isolated oneTreeHost ["vmlinuz-5.10".toList, "vmlinuz-6.1".toList] := by
  rw [isolated_iff_pairwise rfl, List.pairwise_pair]
  intro h
  have hfirst : HasModules oneTreeHost "vmlinuz-5.10".toList := by
    have hver : kernelVer "vmlinuz-5.10".toList = ext4Tree.ver := by decide
    rw [HasModules, hver]
    exact Option.some_ne_none ext4Tree
  have hsecond : oneTreeHost.modules (kernelVer "vmlinuz-6.1".toList) = none := by
    have hver : kernelVer "vmlinuz-6.1".toList ≠ ext4Tree.ver := by decide
    exact if_neg (t := some ext4Tree) hver
  exact h hfirst hsecond

end CgxLayer.Ramdisk

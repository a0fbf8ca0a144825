import CgxLayer.KernelConfig.Datastore

namespace CgxLayer.KernelConfig

open Text

structure SameSettings (d d' : Datastore) : Prop where
  pre : d.preconfigurePrefix = d'.preconfigurePrefix
  ignore : d.preconfigureIgnore = d'.preconfigureIgnore

def SameMap (m m' : Dict Text Text) : Prop := ∀ x, m.get? x = m'.get? x

/-- The string hashed for the task tells the datastore's configuration from every other, in
whatever order the keys come. -/
structure Determines (d : Datastore) : Prop where
  distinct : ∀ d', SameSettings d d' → ¬ SameMap (getKernelConfigVars d) (getKernelConfigVars d') →
    getKernelConfigEnv d ≠ getKernelConfigEnv d'
  order : ∀ d', d.vars.entries.Perm d'.vars.entries → getKernelConfigEnv d = getKernelConfigEnv d'

/-- At most one symbol is configured, and no tail of its value after a blank reads as a second,
later entry. -/
def Unambiguous (d : Datastore) : Prop :=
  ∀ e ∈ d.configVars, d.configVars = [e] ∧
    ∀ val var rest, e.2 = val ++ ' ' :: assigned var rest → IsName var → d.isConfigVar var = true →
      var ≠ e.1 → ¬ assigned e.1 val ≤ assigned var rest

theorem sameMap_iff {m m' : Dict Text Text} :
    SameMap m m' ↔ ∀ e, e ∈ m.entries ↔ e ∈ m'.entries := by
  constructor
  · rintro h ⟨x, val⟩
    rw [← Dict.get?_eq_some, ← Dict.get?_eq_some, h x]
  · intro h x
    apply Option.ext
    intro val
    rw [Dict.get?_eq_some, Dict.get?_eq_some, h]

theorem isConfigVar_congr {d d' : Datastore} (h : SameSettings d d') (var : Text) :
    d.isConfigVar var = d'.isConfigVar var := by
  simp only [Datastore.isConfigVar, h.pre, h.ignore]

theorem SameSettings.symm {d d' : Datastore} (h : SameSettings d d') : SameSettings d' d :=
  ⟨h.pre.symm, h.ignore.symm⟩

theorem mem_configVars_of_sameMap {d d' : Datastore} (h : SameSettings d d')
    (hmap : ∀ e, e ∈ (getKernelConfigVars d).entries ↔ e ∈ (getKernelConfigVars d').entries)
    {e : Text × Text} (he : e ∈ d.configVars) : e ∈ d'.configVars := by
  obtain ⟨var, val⟩ := e
  obtain ⟨x, hx, hdrop⟩ := Datastore.mem_getKernelConfigVars.mp
    ((hmap _).mp (Datastore.mem_getKernelConfigVars.mpr ⟨var, he, rfl⟩))
  rw [← h.pre] at hdrop
  have hown : d.isConfigVar x = true := by
    rw [isConfigVar_congr h]
    exact (Datastore.mem_configVars.mp hx).2
  have hvar : d.isConfigVar var = true := (Datastore.mem_configVars.mp he).2
  rwa [Datastore.drop_injective hvar hown hdrop.symm]

theorem sameMap_iff_configVars {d d' : Datastore} (h : SameSettings d d') :
    SameMap (getKernelConfigVars d) (getKernelConfigVars d') ↔
      ∀ e, e ∈ d.configVars ↔ e ∈ d'.configVars := by
  rw [sameMap_iff]
  constructor
  · intro hmap e
    constructor
    · exact mem_configVars_of_sameMap h hmap
    · exact mem_configVars_of_sameMap h.symm (fun e => (hmap e).symm)
  · rintro hvars ⟨x, val⟩
    simp only [Datastore.mem_getKernelConfigVars, hvars, h.pre]

theorem getKernelConfigEnv_perm {d d' : Datastore} (h : d.vars.entries.Perm d'.vars.entries) :
    getKernelConfigEnv d = getKernelConfigEnv d' := by
  have hget : ∀ {var val val'}, d.vars.get? var = some val → d'.vars.get? var = some val' → val = val' := by
    intro var val val' hval hval'
    have hmem := h.mem_iff.mp (Dict.get?_eq_some.mp hval)
    exact Dict.eq_of_mem hmem (Dict.get?_eq_some.mp hval')
  have hsame : SameSettings d d' := ⟨hget d.prefix_eq d'.prefix_eq, hget d.ignore_eq d'.ignore_eq⟩
  have hvars : d.configVars.Perm d'.configVars := by
    unfold Datastore.configVars
    simp only [isConfigVar_congr hsame]
    exact h.filter _
  rw [getKernelConfigEnv, getKernelConfigEnv, sorted_of_perm (hvars.map _)]

theorem exists_joinWith (sep : Char) (w : Text) (ws : List Text) :
    ∃ t, joinWith sep (w :: ws) = w ++ t := by
  cases ws with
  | nil => exact ⟨[], by simp [joinWith_singleton]⟩
  | cons v vs => exact ⟨_, joinWith_cons_cons sep w v vs⟩

def lines (d : Datastore) : List Text := sorted (d.configVars.map (fun e => assigned e.1 e.2))

theorem getKernelConfigEnv_eq (d : Datastore) : getKernelConfigEnv d = joinWith ' ' (lines d) := rfl

theorem lines_length (d : Datastore) : (lines d).length = d.configVars.length := by
  rw [lines, (sorted_perm _).length_eq, List.length_map]

theorem mem_lines {d : Datastore} {s : Text} (h : s ∈ lines d) :
    ∃ e ∈ d.configVars, s = assigned e.1 e.2 := by
  rw [lines, mem_sorted] at h
  obtain ⟨e, he, rfl⟩ := List.mem_map.mp h
  exact ⟨e, he, rfl⟩

theorem lines_nodup (d : Datastore) : (lines d).Nodup := by
  rw [lines, (sorted_perm _).nodup_iff]
  apply List.Nodup.map_on _ (List.Nodup.of_map Prod.fst d.nodup_configVars)
  intro e he f hf h
  have hparts := assigned_inj (Datastore.name_of_mem he).plain (Datastore.name_of_mem hf).plain h
  exact Prod.ext hparts.1 hparts.2

theorem lines_single {d : Datastore} {e : Text × Text} (h : d.configVars = [e]) :
    lines d = [assigned e.1 e.2] := by
  rw [lines, h]
  exact sorted_of_pairwise (List.pairwise_singleton _ _)

theorem assigned_append (var value t : Text) : assigned var value ++ t = assigned var (value ++ t) := by
  simp [assigned]

theorem lines_eq_nil {d : Datastore} : lines d = [] ↔ d.configVars = [] := by
  rw [← List.length_eq_zero_iff, lines_length, List.length_eq_zero_iff]

theorem exists_of_lines {d : Datastore} {s₁ s₂ : Text} {ss : List Text} (h : lines d = s₁ :: s₂ :: ss) :
    ∃ f ∈ d.configVars, ∃ g ∈ d.configVars, s₁ = assigned f.1 f.2 ∧ s₂ = assigned g.1 g.2 ∧
      g.1 ≠ f.1 ∧ s₁ ≤ s₂ := by
  have hmem : ∀ s ∈ s₁ :: s₂ :: ss, ∃ e ∈ d.configVars, s = assigned e.1 e.2 := by
    intro s hs
    exact mem_lines (h ▸ hs)
  obtain ⟨f, hf, hs₁⟩ := hmem s₁ (List.mem_cons_self ..)
  obtain ⟨g, hg, hs₂⟩ := hmem s₂ (List.mem_cons_of_mem _ (List.mem_cons_self ..))
  refine ⟨f, hf, g, hg, hs₁, hs₂, fun hkey => ?_, ?_⟩
  · have hgf : g = f := List.inj_on_of_nodup_map d.nodup_configVars hg hf hkey
    have hnodup := h ▸ lines_nodup d
    rw [hs₁, hs₂, hgf] at hnodup
    simp at hnodup
  · have hsorted : (lines d).Pairwise (· ≤ ·) := sorted_pairwise _
    rw [h] at hsorted
    exact List.rel_of_pairwise_cons hsorted (List.mem_cons_self ..)

theorem configVars_of_line {d : Datastore} {s : Text} (h : lines d = [s]) :
    ∃ f, d.configVars = [f] ∧ s = assigned f.1 f.2 := by
  obtain ⟨f, hf, hs⟩ := mem_lines (h ▸ List.mem_cons_self .. : s ∈ lines d)
  have hlen : d.configVars.length = 1 := by
    rw [← lines_length, h]
    rfl
  obtain ⟨g, hg⟩ := List.length_eq_one_iff.mp hlen
  rw [hg, List.mem_singleton] at hf
  exact ⟨g, hg, hf ▸ hs⟩

theorem ne_lines_of_unambiguous {d d' : Datastore} (h : Unambiguous d) (hsame : SameSettings d d')
    {e : Text × Text} (he : e ∈ d.configVars) {s₁ s₂ : Text} {ss : List Text} (hd' : lines d' = s₁ :: s₂ :: ss) :
    assigned e.1 e.2 ≠ joinWith ' ' (s₁ :: s₂ :: ss) := by
  -- the value would hold the rest of the other string
  intro henv
  obtain ⟨-, hsplit⟩ := h e he
  obtain ⟨f, hf, g, hg, rfl, rfl, hne, hle⟩ := exists_of_lines hd'
  obtain ⟨t, ht⟩ := exists_joinWith ' ' (assigned g.1 g.2) ss
  rw [joinWith_cons_cons, ht, assigned_append] at henv
  have hwhole : assigned e.1 e.2 = assigned f.1 (f.2 ++ ' ' :: assigned g.1 (g.2 ++ t)) := by
    rw [henv, assigned_append]
  obtain ⟨hkey, hval⟩ := assigned_inj (Datastore.name_of_mem he).plain (Datastore.name_of_mem hf).plain hwhole
  have hown : d.isConfigVar g.1 = true := by
    rw [isConfigVar_congr hsame]
    exact (Datastore.mem_configVars.mp hg).2
  have hlast : assigned e.1 f.2 ≤ assigned g.1 (g.2 ++ t) := by
    rw [hkey, ← assigned_append]
    exact le_trans hle (le_append _ t)
  exact absurd hlast (hsplit f.2 g.1 (g.2 ++ t) hval (Datastore.name_of_mem hg) hown (hkey ▸ hne))

theorem distinct_of_unambiguous {d d' : Datastore} (h : Unambiguous d) (hsame : SameSettings d d')
    (henv : getKernelConfigEnv d = getKernelConfigEnv d') : ∀ e, e ∈ d.configVars ↔ e ∈ d'.configVars := by
  rw [getKernelConfigEnv_eq, getKernelConfigEnv_eq] at henv
  cases hd : d.configVars with
  | nil =>
    cases hd' : lines d' with
    | nil => simp [lines_eq_nil.mp hd']
    | cons s ss =>
      obtain ⟨e, -, rfl⟩ := mem_lines (hd' ▸ List.mem_cons_self .. : s ∈ lines d')
      obtain ⟨t, ht⟩ := exists_joinWith ' ' (assigned e.1 e.2) ss
      rw [lines_eq_nil.mpr hd, hd', ht] at henv
      simp [joinWith, assigned] at henv
  | cons e es =>
    have he : e ∈ d.configVars := hd ▸ List.mem_cons_self ..
    obtain ⟨hone, -⟩ := h e he
    rw [← hd, hone]
    rw [lines_single hone, joinWith_singleton] at henv
    cases hd' : lines d' with
    | nil =>
      rw [hd'] at henv
      simp [joinWith, assigned] at henv
    | cons s₁ ss =>
      rw [hd'] at henv
      cases ss with
      | nil =>
        obtain ⟨f, hf, rfl⟩ := configVars_of_line hd'
        rw [joinWith_singleton] at henv
        have hmem : f ∈ d'.configVars := hf ▸ List.mem_cons_self ..
        obtain ⟨hkey, hval⟩ := assigned_inj (Datastore.name_of_mem he).plain (Datastore.name_of_mem hmem).plain henv
        rw [hf, Prod.ext hkey hval]
        exact fun _ => Iff.rfl
      | cons s₂ ss => exact absurd henv (ne_lines_of_unambiguous h hsame he hd')

theorem Replaces.sameSettings {d : Datastore} {es : List (Text × Text)} (h : Replaces d es) :
    SameSettings d h.datastore := ⟨rfl, rfl⟩

theorem Replaces.mem_of_determines {d : Datastore} {es : List (Text × Text)} (h : Replaces d es)
    (hd : Determines d) (henv : getKernelConfigEnv d = getKernelConfigEnv h.datastore) :
    ∀ e, e ∈ d.configVars ↔ e ∈ es := by
  have hmap : SameMap (getKernelConfigVars d) (getKernelConfigVars h.datastore) := by
    by_contra hne
    exact hd.distinct h.datastore h.sameSettings hne henv
  have hmem := (sameMap_iff_configVars h.sameSettings).mp hmap
  rwa [h.configVars_datastore] at hmem

theorem configVars_single_of_determines {d : Datastore} (hd : Determines d) {e : Text × Text}
    (he : e ∈ d.configVars) : d.configVars = [e] := by
  cases hl : lines d with
  | nil =>
    have hlen : d.configVars.length = 0 := by rw [← lines_length, hl]; rfl
    simp [List.length_eq_zero_iff.mp hlen] at he
  | cons s ss =>
    cases ss with
    | nil =>
      have hlen : d.configVars.length = 1 := by rw [← lines_length, hl]; rfl
      obtain ⟨g, hg⟩ := List.length_eq_one_iff.mp hlen
      rw [hg, List.mem_singleton] at he
      rw [hg, he]
    | cons s₂ ss =>
      -- one symbol whose value is the rest of the string gives the same string
      obtain ⟨f, hf, rfl⟩ := mem_lines (hl ▸ List.mem_cons_self .. : s ∈ lines d)
      let g : Text × Text := (f.1, f.2 ++ ' ' :: joinWith ' ' (s₂ :: ss))
      have hf' : IsName f.1 ∧ d.isConfigVar f.1 = true :=
        ⟨Datastore.name_of_mem hf, (Datastore.mem_configVars.mp hf).2⟩
      have hrep : Replaces d [g] := by
        refine ⟨by simp, fun x hx => ?_, fun x hx => ?_⟩
        · rw [List.mem_singleton.mp hx]
          exact hf'.1
        · rw [List.mem_singleton.mp hx]
          exact hf'.2
      have henv : getKernelConfigEnv d = getKernelConfigEnv hrep.datastore := by
        rw [getKernelConfigEnv_eq, getKernelConfigEnv_eq, hl, lines_single hrep.configVars_datastore,
          joinWith_cons_cons, joinWith_singleton]
        simp [g, assigned]
      have hmem := hrep.mem_of_determines hd henv
      have hall : ∀ x ∈ d.configVars, x = g := fun x hx => List.mem_singleton.mp ((hmem x).mp hx)
      have hlen : 2 ≤ d.configVars.length := by rw [← lines_length, hl]; simp
      have hnodup := List.Nodup.of_map Prod.fst d.nodup_configVars
      have hle : d.configVars.length ≤ 1 := by
        have hsub : d.configVars ⊆ [g] := fun x hx => List.mem_singleton.mpr (hall x hx)
        exact (List.subperm_of_subset hnodup hsub).length_le
      omega

theorem determines_iff_unambiguous (d : Datastore) : Determines d ↔ Unambiguous d := by
  constructor
  · intro hd e he
    have hone := configVars_single_of_determines hd he
    refine ⟨hone, fun val var rest hval hname hown hne hle => hne ?_⟩
    have he' : IsName e.1 ∧ d.isConfigVar e.1 = true :=
      ⟨Datastore.name_of_mem he, (Datastore.mem_configVars.mp he).2⟩
    have hrep : Replaces d [(e.1, val), (var, rest)] := by
      refine ⟨by simpa using Ne.symm hne, fun x hx => ?_, fun x hx => ?_⟩
      · simp only [List.mem_cons, List.not_mem_nil, or_false] at hx
        rcases hx with rfl | rfl
        · exact he'.1
        · exact hname
      · simp only [List.mem_cons, List.not_mem_nil, or_false] at hx
        rcases hx with rfl | rfl
        · exact he'.2
        · exact hown
    have hlines : lines hrep.datastore = [assigned e.1 val, assigned var rest] := by
      rw [lines, hrep.configVars_datastore]
      exact sorted_of_pairwise (List.pairwise_pair.mpr hle)
    have henv : getKernelConfigEnv d = getKernelConfigEnv hrep.datastore := by
      rw [getKernelConfigEnv_eq, getKernelConfigEnv_eq, hlines, lines_single hone, joinWith_cons_cons,
        joinWith_singleton, joinWith_singleton, hval]
      simp [assigned]
    have hmem := (hrep.mem_of_determines hd henv (var, rest)).mpr (by simp)
    rw [hone, List.mem_singleton] at hmem
    exact congrArg Prod.fst hmem
  · intro h
    refine ⟨fun d' hsame hne henv => hne ?_, fun d' hperm => getKernelConfigEnv_perm hperm⟩
    exact (sameMap_iff_configVars hsame).mpr (distinct_of_unambiguous h hsame henv)

def kernelNames (es : List (Text × Text)) : List (Text × Text) :=
  [(prefixVar, "KERNEL_".toList), (ignoreVar, [])] ++ es

theorem isName_of_printable {var : Text} (hplain : '=' ∉ var) (h : Printable var) : IsName var :=
  ⟨hplain, fun c hc => pyBlank_of_printable (h c hc).1 (h c hc).2⟩

def cmdlineDatastore : Datastore where
  vars := ⟨kernelNames [("KERNEL_CONFIG_CMDLINE".toList, "quiet KERNEL_CONFIG_SMP=y".toList)], by decide⟩
  names := by
    intro var hvar
    simp only [Dict.keys, kernelNames, List.cons_append, List.nil_append, List.map_cons, List.map_nil,
      List.mem_cons, List.not_mem_nil, or_false] at hvar
    rcases hvar with rfl | rfl | rfl <;> exact isName_of_printable (by decide) (by decide)
  preconfigurePrefix := "KERNEL_".toList
  preconfigureIgnore := []
  prefix_eq := by decide
  ignore_eq := by decide

def smpDatastore : Datastore where
  vars := ⟨kernelNames [("KERNEL_CONFIG_CMDLINE".toList, "quiet".toList),
    ("KERNEL_CONFIG_SMP".toList, "y".toList)], by decide⟩
  names := by
    intro var hvar
    simp only [Dict.keys, kernelNames, List.cons_append, List.nil_append, List.map_cons, List.map_nil,
      List.mem_cons, List.not_mem_nil, or_false] at hvar
    rcases hvar with rfl | rfl | rfl | rfl <;> exact isName_of_printable (by decide) (by decide)
  preconfigurePrefix := "KERNEL_".toList
  preconfigureIgnore := []
  prefix_eq := by decide
  ignore_eq := by decide

theorem cmdline_hides_smp : ¬ Determines cmdlineDatastore := by
  intro h
  have hmap : ¬ SameMap (getKernelConfigVars cmdlineDatastore) (getKernelConfigVars smpDatastore) := by
    intro hsame
    have hsmp := hsame "CONFIG_SMP".toList
    revert hsmp
    decide
  exact h.distinct smpDatastore ⟨rfl, rfl⟩ hmap (by decide)

end CgxLayer.KernelConfig

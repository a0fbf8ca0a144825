import CgxLayer.Installer.BaseDevices

namespace CgxLayer.Installer

open Text

def lvmChar (c : Char) : Bool := c.isAlphanum || c ∈ ['_', '.', '+', '-']

structure LvmName where
  text : Text
  legal : ∀ c ∈ text, lvmChar c = true
  start : ∃ c s, text = c :: s ∧ c ≠ '-'

def mapperDir : Text := "/dev/mapper/".toList

def lvDevice (vg name : Text) : Text := mapperDir ++ vg ++ "-".toList ++ name

def doubled (s : Text) : Text := s.flatMap (fun c => if c = '-' then ['-', '-'] else [c])

def mapperDevice (vg name : LvmName) : Text :=
  mapperDir ++ doubled vg.text ++ '-' :: doubled name.text

structure PhysicalVolume where
  pv : Text
  group : Option LvmName
  fmt : Text
  rest : Text
  pvWord : IsWord pyBlank pv
  fmtWord : IsWord pyBlank fmt

-- A line of `pvs --noheadings`, where a volume of no group has an empty column.
def PhysicalVolume.line (p : PhysicalVolume) : Text :=
  "  ".toList ++ p.pv ++ ' ' ::
    ((match p.group with
      | some g => g.text
      | none => []) ++ ' ' :: (p.fmt ++ ' ' :: p.rest))

def volumesIn (report : List PhysicalVolume) (vg : Text) : List Text :=
  (report.filter (fun p => p.group.map LvmName.text = some vg)).map PhysicalVolume.pv

/-- The volume group that `find_base_devices` looks for. -/
def searchedVg (dev : Text) : Option Text := (splitFirst '-' ((dev.drop 5).drop 7)).map Prod.fst

structure NamesVolume (vg name : LvmName) (report : List PhysicalVolume) : Prop where
  identifies : ∀ vg' name' : LvmName, lvDevice vg'.text name'.text = lvDevice vg.text name.text →
    vg'.text = vg.text ∧ name'.text = name.text
  created : lvDevice vg.text name.text = mapperDevice vg name
  searched : searchedVg (lvDevice vg.text name.text) = some vg.text
  volumes : volumesOf vg.text (report.map PhysicalVolume.line) = volumesIn report vg.text
  based : ∀ (w : Probe) (depth : ℕ), w.pvs = some (report.map PhysicalVolume.line) →
    findBaseDevices w (depth + 1) (lvDevice vg.text name.text) =
      collect (findBaseDevices w depth) (volumesIn report vg.text)

theorem lvmChar_printable {c : Char} (h : lvmChar c = true) : 33 ≤ c.toNat ∧ c.toNat ≤ 126 := by
  rcases Bool.or_eq_true_iff.mp h with h | h
  · have halnum := toNat_of_isAlphanum h
    omega
  · have hmem : c ∈ ['_', '.', '+', '-'] := of_decide_eq_true h
    have hall : Printable ['_', '.', '+', '-'] := by decide
    exact hall c hmem

theorem LvmName.isWord (n : LvmName) : IsWord pyBlank n.text := by
  obtain ⟨c, s, htext, -⟩ := n.start
  apply isWord_of_printable
  · rw [htext]
    exact List.cons_ne_nil c s
  · exact fun c hc => lvmChar_printable (n.legal c hc)

theorem lvDevice_eq (vg name : Text) : lvDevice vg name = mapperDir ++ (vg ++ '-' :: name) := by
  simp only [lvDevice, List.append_assoc]
  rfl

theorem drop_mapper (s : Text) : ("mapper/".toList ++ s).drop 7 = s := List.drop_left' (by decide)

theorem mapperDir_append (s : Text) : mapperDir ++ s = devDir ++ ("mapper/".toList ++ s) := by
  rw [← List.append_assoc]
  congr 1

theorem drop_devDir (s : Text) : (devDir ++ s).drop 5 = s := List.drop_left' (by decide)

theorem searchedVg_lvDevice (vg name : Text) :
    searchedVg (lvDevice vg name) = (splitFirst '-' (vg ++ '-' :: name)).map Prod.fst := by
  rw [lvDevice_eq, searchedVg, mapperDir_append, drop_devDir, drop_mapper]

theorem splitFirst_fst {sep : Char} {s t u : Text} (h : splitFirst sep s = some (t, u)) : sep ∉ t := by
  induction s generalizing t u with
  | nil => cases h
  | cons c s ih =>
    rw [splitFirst] at h
    split_ifs at h with hc
    · cases h
      exact List.not_mem_nil
    · obtain ⟨p, hp, heq⟩ := Option.map_eq_some_iff.mp h
      cases heq
      rw [List.mem_cons, not_or]
      exact ⟨fun heq => hc heq.symm, ih hp⟩

theorem searchedVg_eq_iff (vg name : Text) :
    searchedVg (lvDevice vg name) = some vg ↔ '-' ∉ vg := by
  rw [searchedVg_lvDevice]
  constructor
  · intro h
    obtain ⟨⟨t, u⟩, hsplit, heq⟩ := Option.map_eq_some_iff.mp h
    cases heq
    exact splitFirst_fst hsplit
  · intro hvg
    rw [splitFirst_append _ _ hvg]
    rfl

theorem findBaseDevices_lvDevice (w : Probe) (depth : ℕ) {vg : Text} (name : Text) (hvg : '-' ∉ vg)
    {lines : List Text} (hpvs : w.pvs = some lines) :
    findBaseDevices w (depth + 1) (lvDevice vg name) =
      collect (findBaseDevices w depth) (volumesOf vg lines) := by
  have hmd (s : Text) : startsWith "md".toList ("mapper/".toList ++ s) = false := by
    simp [startsWith, List.isPrefixOf]
  have hmapper (s : Text) : startsWith "mapper/".toList ("mapper/".toList ++ s) = true :=
    startsWith_iff.mpr (List.prefix_append _ _)
  rw [lvDevice_eq, mapperDir_append]
  simp only [findBaseDevices, not_startsWith_uuid, startsWith_devDir, drop_devDir, Bool.false_eq_true,
    if_false, if_true, hmd, hmapper, drop_mapper, splitFirst_append _ _ hvg, hpvs]

theorem length_doubled (s : Text) : (doubled s).length = s.length + s.count '-' := by
  induction s with
  | nil => rfl
  | cons c s ih =>
    rw [doubled, List.flatMap_cons, List.length_append, ← doubled, ih, List.count_cons, List.length_cons]
    by_cases hc : c = '-'
    · simp [hc]
      omega
    · simp [hc]
      omega

theorem doubled_of_not_mem {s : Text} (h : '-' ∉ s) : doubled s = s := by
  induction s with
  | nil => rfl
  | cons c s ih =>
    rw [List.mem_cons, not_or] at h
    rw [doubled, List.flatMap_cons, if_neg (fun hc => h.1 hc.symm), ← doubled, ih h.2]
    rfl

theorem lvDevice_eq_mapperDevice (vg name : LvmName) :
    lvDevice vg.text name.text = mapperDevice vg name ↔ '-' ∉ vg.text ∧ '-' ∉ name.text := by
  rw [lvDevice_eq, mapperDevice, List.append_assoc]
  constructor
  · intro h
    have hlen := congrArg List.length (List.append_cancel_left h)
    simp only [List.length_append, List.length_cons, length_doubled] at hlen
    exact ⟨List.count_eq_zero.mp (by omega), List.count_eq_zero.mp (by omega)⟩
  · rintro ⟨hvg, hname⟩
    rw [doubled_of_not_mem hvg, doubled_of_not_mem hname]

theorem lvDevice_injective {vg name : Text} (hvg : '-' ∉ vg) (hname : '-' ∉ name) {vg' name' : Text}
    (h : lvDevice vg' name' = lvDevice vg name) : vg' = vg ∧ name' = name := by
  rw [lvDevice_eq, lvDevice_eq] at h
  have hpair := List.append_cancel_left h
  have hcount := congrArg (List.count '-') hpair
  simp only [List.count_append, List.count_cons_self, List.count_eq_zero.mpr hvg,
    List.count_eq_zero.mpr hname] at hcount
  have hvg' : '-' ∉ vg' := List.count_eq_zero.mp (by omega)
  have hsplit := congrArg (splitFirst '-') hpair
  rw [splitFirst_append _ _ hvg', splitFirst_append _ _ hvg] at hsplit
  cases hsplit
  exact ⟨rfl, rfl⟩

def shownGroup (p : PhysicalVolume) : Text :=
  match p.group with
  | some g => g.text
  | none => p.fmt

theorem words_line (p : PhysicalVolume) :
    ∃ ws, words pyBlank p.line = p.pv :: shownGroup p :: ws := by
  have hblank : pyBlank ' ' = true := by decide
  have hhead (s : Text) : words pyBlank ("  ".toList ++ s) = words pyBlank s := by
    change words pyBlank (' ' :: ' ' :: s) = _
    rw [words_cons_blank _ hblank, words_cons_blank _ hblank]
  rw [PhysicalVolume.line, List.append_assoc, hhead, words_word_blank p.pvWord _ hblank]
  unfold shownGroup
  cases p.group with
  | none =>
    refine ⟨words pyBlank p.rest, ?_⟩
    rw [List.nil_append, words_cons_blank _ hblank, words_word_blank p.fmtWord _ hblank]
  | some g =>
    refine ⟨p.fmt :: words pyBlank p.rest, ?_⟩
    rw [words_word_blank g.isWord _ hblank, words_word_blank p.fmtWord _ hblank]

theorem volumesOf_report (vg : Text) (report : List PhysicalVolume) :
    volumesOf vg (report.map PhysicalVolume.line) =
      (report.filter (fun p => shownGroup p = vg)).map PhysicalVolume.pv := by
  induction report with
  | nil => rfl
  | cons p report ih =>
    obtain ⟨ws, hwords⟩ := words_line p
    rw [volumesOf] at ih ⊢
    rw [List.map_cons, List.filterMap_cons, hwords, List.filter_cons]
    by_cases hp : shownGroup p = vg
    · simp only [hp, if_true, decide_true, List.map_cons, ih]
    · simp only [hp, if_false, decide_false, Bool.false_eq_true, ih]

theorem volumesOf_eq_iff (vg : Text) (report : List PhysicalVolume) :
    volumesOf vg (report.map PhysicalVolume.line) = volumesIn report vg ↔
      ∀ p ∈ report, p.group = none → p.fmt ≠ vg := by
  have hshown (p : PhysicalVolume) : shownGroup p = vg ↔
      p.group.map LvmName.text = some vg ∨ p.group = none ∧ p.fmt = vg := by
    unfold shownGroup
    cases p.group <;> simp
  rw [volumesOf_report, volumesIn]
  constructor
  · intro h p hp hgroup hfmt
    have hkept : (report.filter (fun p => shownGroup p = vg)).filter (fun p => p.group.map LvmName.text = some vg) =
        report.filter (fun p => p.group.map LvmName.text = some vg) := by
      rw [List.filter_filter]
      apply List.filter_congr
      intro q _
      by_cases hq : q.group.map LvmName.text = some vg
      · simp [hq, (hshown q).mpr (.inl hq)]
      · simp [hq]
    have hlen := congrArg List.length h
    rw [List.length_map, List.length_map, ← hkept] at hlen
    have hall := List.filter_sublist.eq_of_length hlen.symm
    have hmem : p ∈ report.filter (fun p => shownGroup p = vg) :=
      List.mem_filter.mpr ⟨hp, decide_eq_true ((hshown p).mpr (.inr ⟨hgroup, hfmt⟩))⟩
    have hin := of_decide_eq_true (List.filter_eq_self.mp hall p hmem)
    rw [hgroup] at hin
    cases hin
  · intro h
    congr 1
    apply List.filter_congr
    intro p hp
    have hno : ¬ (p.group = none ∧ p.fmt = vg) := fun ⟨hgroup, hfmt⟩ => h p hp hgroup hfmt
    simp only [hshown p, hno, or_false]

theorem namesVolume_iff (vg name : LvmName) (report : List PhysicalVolume) :
    NamesVolume vg name report ↔
      '-' ∉ vg.text ∧ '-' ∉ name.text ∧ ∀ p ∈ report, p.group = none → p.fmt ≠ vg.text := by
  constructor
  · intro h
    have hcreated := (lvDevice_eq_mapperDevice vg name).mp h.created
    exact ⟨hcreated.1, hcreated.2, (volumesOf_eq_iff _ _).mp h.volumes⟩
  · rintro ⟨hvg, hname, hfmt⟩
    have hvolumes := (volumesOf_eq_iff vg.text report).mpr hfmt
    refine ⟨fun vg' name' h => lvDevice_injective hvg hname h, (lvDevice_eq_mapperDevice vg name).mpr ⟨hvg, hname⟩,
      (searchedVg_eq_iff _ _).mpr hvg, hvolumes, ?_⟩
    intro w depth hpvs
    rw [findBaseDevices_lvDevice w depth name.text hvg hpvs, hvolumes]

def dataRoot : LvmName := ⟨"vg-data".toList, by decide, 'v', "g-data".toList, rfl, by decide⟩

def rootName : LvmName := ⟨"root".toList, by decide, 'r', "oot".toList, rfl, by decide⟩

theorem hyphen_loses_group : ¬ ∀ (vg name : LvmName) (report : List PhysicalVolume),
    NamesVolume vg name report := by
  intro h
  have hsearched := (h dataRoot rootName []).searched
  revert hsearched
  decide

end CgxLayer.Installer

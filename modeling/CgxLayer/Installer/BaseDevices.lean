import CgxLayer.Installer.Fstab
import CgxLayer.Installer.Topology

namespace CgxLayer.Installer

open Text Relation

structure Probe where
  blkid : Text → Option Text
  mdstat : List Text
  pvs : Option (List Text)

def uuidToDev (w : Probe) (uuid : Text) : Except Failure Text :=
  match w.blkid uuid with
  | none => .error .installerException
  | some out =>
    match splitFirst ':' out with
    | none => .error .valueError
    | some (dev, _) => .ok dev

def collect (f : Text → Except Failure (List Text)) : List Text → Except Failure (List Text)
  | [] => .ok []
  | d :: ds =>
    match f d with
    | .error e => .error e
    | .ok subdevs =>
      match collect f ds with
      | .error e => .error e
      | .ok rest => .ok (subdevs ++ rest)

def isArrayLine (base l : Text) : Bool :=
  5 ≤ (words pyBlank l).length && (words pyBlank l).head? == some base

def volumesOf (vgname : Text) (lines : List Text) : List Text :=
  lines.filterMap (fun l =>
    match words pyBlank l with
    | pv :: vg :: _ => if vg = vgname then some pv else none
    | _ => none)

/-- `find_base_devices`, to at most `depth` nested calls. -/
def findBaseDevices (w : Probe) : ℕ → Text → Except Failure (List Text)
  | 0, _ => .error .recursionError
  | depth + 1, dev =>
    match (if startsWith "UUID=".toList dev then uuidToDev w dev
      else if startsWith devDir dev then .ok dev else .error .installerException) with
    | .error e => .error e
    | .ok dev =>
      let base := dev.drop 5
      if startsWith "md".toList base then
        match w.mdstat.find? (isArrayLine base) with
        | none => .ok []
        | some l =>
          collect (fun d =>
            match splitFirst '[' d with
            | none => .error .valueError
            | some (d, _) => findBaseDevices w depth (devDir ++ d)) ((words pyBlank l).drop 4)
      else if startsWith "mapper/".toList base then
        match splitFirst '-' (base.drop 7) with
        | none => .error .valueError
        | some (vgname, _) =>
          match w.pvs with
          | none => .error .installerException
          | some lines => collect (findBaseDevices w depth) (volumesOf vgname lines)
      else if startsWith "sd".toList base || startsWith "hd".toList base then
        .ok [devDir ++ base.take 3]
      else .error .installerException

def bootPoint : Text := "/boot".toList

def bootDevice (m : Mounts) : Except Failure Text :=
  match m.get? bootPoint, m.get? rootPoint with
  | some info, _ => .ok info.dev
  | none, some info => .ok info.dev
  | none, none => .error .installerException

def findBootDevices (w : Probe) (depth : ℕ) (m : Mounts) : Except Failure (List Text) :=
  match bootDevice m with
  | .error e => .error e
  | .ok dev =>
    match findBaseDevices w depth dev with
    | .error e => .error e
    | .ok devs => .ok (sortUniq devs)

def partitionDevice (dev : Text) (num : ℕ) : Text :=
  if startsWith "/dev/md".toList dev then dev ++ 'p' :: decimal num else dev ++ decimal num

def raidDevice (i : ℕ) : Text := "/dev/md".toList ++ decimal i

def nextRaid (present : Text → Bool) : Option Text :=
  ((List.range 128).find? (fun i => !present (raidDevice i))).map raidDevice

theorem partitionDevice_disk (d : Disk) (k : ℕ) :
    partitionDevice (Dev.disk d).path k = (Dev.part d k).path := by
  have hmd : startsWith "/dev/md".toList (Dev.disk d).path = false := by
    cases hb : d.bus <;>
      simp [startsWith, Dev.path, Dev.name, Disk.name, devDir, Bus.text, hb, List.isPrefixOf]
  rw [partitionDevice, hmd]
  simp [Dev.path, Dev.name]

theorem partitionDevice_md (n k : ℕ) :
    partitionDevice (Dev.md n).path k = (Dev.mdPart n k).path := by
  have hmd : startsWith "/dev/md".toList (Dev.md n).path = true := by
    simp [startsWith, Dev.path, Dev.name, mdName, devDir, List.isPrefixOf]
  rw [partitionDevice, hmd]
  simp [Dev.path, Dev.name]

theorem nextRaid_path {present : Text → Bool} {dev : Text} (h : nextRaid present = some dev) :
    ∃ n < 128, dev = (Dev.md n).path := by
  obtain ⟨n, hn, rfl⟩ := Option.map_eq_some_iff.mp h
  exact ⟨n, List.mem_range.mp (List.mem_of_find?_eq_some hn), rfl⟩

theorem collect_ok {f : Text → Except Failure (List Text)} {ds : List Text}
    (h : ∀ d ∈ ds, ∃ l, f d = .ok l) :
    ∃ l, collect f ds = .ok l ∧ ∀ x, x ∈ l ↔ ∃ d ∈ ds, ∃ l', f d = .ok l' ∧ x ∈ l' := by
  induction ds with
  | nil => exact ⟨[], rfl, by simp⟩
  | cons d ds ih =>
    obtain ⟨l, hl⟩ := h d (List.mem_cons_self ..)
    obtain ⟨ls, hls, hmem⟩ := ih (fun e he => h e (List.mem_cons_of_mem _ he))
    refine ⟨l ++ ls, by simp [collect, hl, hls], fun x => ?_⟩
    simp [hl, hmem]

theorem collect_error {f : Text → Except Failure (List Text)} {ds : List Text} {d : Text}
    (hd : d ∈ ds) (h : ¬ ∃ l, f d = .ok l) : ¬ ∃ l, collect f ds = .ok l := by
  induction ds with
  | nil => simp at hd
  | cons e ds ih =>
    rintro ⟨l, hl⟩
    simp only [collect] at hl
    cases he : f e with
    | error _ => simp [he] at hl
    | ok le =>
      cases hds : collect f ds with
      | error _ => simp [he, hds] at hl
      | ok lds =>
        rcases List.mem_cons.mp hd with rfl | hd
        · exact h ⟨le, he⟩
        · exact ih hd ⟨lds, hds⟩

variable {w : Probe} {t : Topology}

def shortPath (d : Disk) : Text := devDir ++ d.name.take 3

theorem startsWith_devDir (s : Text) : startsWith devDir (devDir ++ s) = true :=
  startsWith_iff.mpr (List.prefix_append _ _)

theorem not_startsWith_uuid (s : Text) : startsWith "UUID=".toList (devDir ++ s) = false := by
  simp [startsWith, devDir, List.isPrefixOf]

theorem findBaseDevices_disk (depth : ℕ) (d : Disk) (s : Text) :
    findBaseDevices w (depth + 1) (devDir ++ (d.name ++ s)) =
      .ok [devDir ++ (d.name ++ s).take 3] := by
  have hdrop : (devDir ++ (d.name ++ s)).drop 5 = d.name ++ s := by simp [devDir]
  simp only [findBaseDevices, not_startsWith_uuid, startsWith_devDir, hdrop, Bool.false_eq_true,
    if_false, if_true]
  cases hb : d.bus <;> simp [Disk.name, Bus.text, hb, startsWith, List.isPrefixOf]

theorem find_printed (hp : t.PrintedIn w.mdstat) {base : Text}
    (hbase : startsWith "md".toList base = true) :
    w.mdstat.find? (isArrayLine base) =
      (t.arrays.find? (fun a => mdName a.number = base)).map MdArray.line := by
  have hfilter : w.mdstat.find? (isArrayLine base) =
      (t.arrays.map MdArray.line).find? (isArrayLine base) := by
    rw [← hp, List.find?_filter]
    congr 1
    funext l
    cases hl : isArrayLine base l with
    | false => simp
    | true =>
      simp only [isArrayLine, Bool.and_eq_true, beq_iff_eq] at hl
      simp only [hl.2, Option.map_some, Option.getD_some, hbase, and_self, decide_true]
  rw [hfilter, List.find?_map]
  congr 2
  funext a
  have hlen : 5 ≤ a.fields.length := by
    have := List.length_pos_iff.mpr a.nonempty
    simp [MdArray.fields]
    omega
  simp only [Function.comp_apply, isArrayLine, a.words_line, hlen, decide_true, Bool.true_and]
  simp only [MdArray.fields, List.cons_append, List.head?_cons, Option.some_beq_some]
  by_cases h : mdName a.number = base <;> simp [h]

theorem splitFirst_raidWord (level : ℕ) : splitFirst '[' ("raid".toList ++ decimal level) = none := by
  rw [splitFirst_none]
  intro h
  rcases List.mem_append.mp h with h | h
  · revert h
    decide
  · have hdigit := isDigit_of_mem_decimal h
    revert hdigit
    decide

theorem findBaseDevices_md (hp : t.PrintedIn w.mdstat) (depth n : ℕ) :
    findBaseDevices w (depth + 1) (Dev.md n).path =
      match findArray t.arrays n with
      | none => .ok []
      | some a =>
        if a.state = none then
          collect (findBaseDevices w depth) (a.members.map (fun m => m.dev.path))
        else .error .valueError := by
  have hdrop : (Dev.md n).path.drop 5 = mdName n := by simp [Dev.path, devDir, Dev.name]
  have hbase : startsWith "md".toList (mdName n) = true :=
    startsWith_iff.mpr (List.prefix_append _ _)
  have harray : t.arrays.find? (fun a => mdName a.number = mdName n) = findArray t.arrays n := by
    unfold findArray
    congr 1
    funext a
    exact decide_eq_decide.mpr ⟨mdName_injective, congrArg mdName⟩
  simp only [findBaseDevices, Dev.path, not_startsWith_uuid, startsWith_devDir, Bool.false_eq_true,
    if_false, if_true]
  rw [← Dev.path, hdrop, hbase, if_pos rfl, find_printed hp hbase, harray]
  cases findArray t.arrays n with
  | none => rfl
  | some a =>
    simp only [Option.map_some, a.words_line, MdArray.fields]
    cases a.state with
    | none =>
      simp only [Option.map_none, Option.toList_none, if_true]
      change collect _ (a.members.map Member.text) = _
      induction a.members with
      | nil => rfl
      | cons m ms ih =>
        simp only [List.map_cons, collect, m.splitFirst_text, ih]
    | some s =>
      simp only [Option.map_some, Option.toList_some, reduceCtorEq, if_false]
      change collect _ (("raid".toList ++ decimal a.level) :: a.members.map Member.text) = _
      simp only [collect, splitFirst_raidWord]

theorem findBaseDevices_mdPart (hp : t.PrintedIn w.mdstat) (depth n k : ℕ) :
    findBaseDevices w (depth + 1) (Dev.mdPart n k).path = .ok [] := by
  have hdrop : (Dev.mdPart n k).path.drop 5 = (Dev.mdPart n k).name := by simp [Dev.path, devDir]
  have hbase : startsWith "md".toList (Dev.mdPart n k).name = true := by
    simp [startsWith, Dev.name, mdName, List.isPrefixOf]
  -- no array has a name with a `p` in it, so the loop runs through the file
  have hnone : t.arrays.find? (fun a => mdName a.number = (Dev.mdPart n k).name) = none := by
    rw [List.find?_eq_none]
    intro a _ ha
    have hname : mdName a.number = mdName n ++ 'p' :: decimal k := of_decide_eq_true ha
    have hmem : 'p' ∈ decimal a.number := by
      have hp' : 'p' ∈ mdName a.number := by simp [hname]
      simpa [mdName] using hp'
    have := isDigit_of_mem_decimal hmem
    revert this
    decide
  simp only [findBaseDevices, Dev.path, not_startsWith_uuid, startsWith_devDir, Bool.false_eq_true,
    if_false, if_true]
  rw [← Dev.path, hdrop, hbase, if_pos rfl, find_printed hp hbase, hnone]
  rfl

def Found (w : Probe) (t : Topology) (depth : ℕ) (d : Dev) : Prop :=
  ∃ l, findBaseDevices w depth d.path = .ok l ∧
    ∀ x, x ∈ l ↔ ∃ disk, t.Visible d disk ∧ x = shortPath disk

theorem visible_leaf {d : Dev} {disk : Disk} (hd : memberDevs t.arrays d = []) :
    t.Visible d disk ↔ d.onDisk = some disk := by
  constructor
  · rintro ⟨e, hde, he⟩
    rcases ReflTransGen.cases_head hde with rfl | ⟨c, hc, -⟩
    · exact he
    · simp [Topology.MemberOf, hd] at hc
  · exact fun h => ⟨d, .refl, h⟩

theorem visible_md {n : ℕ} {disk : Disk} : t.Visible (.md n) disk ↔
    ∃ e ∈ memberDevs t.arrays (.md n), t.Visible e disk := by
  constructor
  · rintro ⟨e, hde, he⟩
    rcases ReflTransGen.cases_head hde with rfl | ⟨c, hc, hce⟩
    · cases he
    · exact ⟨c, hc, e, hce, he⟩
  · rintro ⟨c, hc, e, hce, he⟩
    exact ⟨e, .head hc hce, he⟩

theorem shortPath_of_append (d : Disk) (s : Text) : (d.name ++ s).take 3 = d.name.take 3 := by
  have hlen : 3 ≤ d.name.length := by
    have := List.length_pos_iff.mpr d.nonempty
    simp only [Disk.name, List.length_append, Bus.text_length]
    omega
  exact List.take_append_of_le_length hlen

theorem found_collect {depth : ℕ} {es : List Dev} (h : ∀ e ∈ es, Found w t depth e) :
    ∃ l, collect (findBaseDevices w depth) (es.map Dev.path) = .ok l ∧
      ∀ x, x ∈ l ↔ ∃ disk, (∃ e ∈ es, t.Visible e disk) ∧ x = shortPath disk := by
  have hok : ∀ p ∈ es.map Dev.path, ∃ l, findBaseDevices w depth p = .ok l := by
    intro p hp
    obtain ⟨e, he, rfl⟩ := List.mem_map.mp hp
    obtain ⟨l, hl, -⟩ := h e he
    exact ⟨l, hl⟩
  obtain ⟨l, hl, hmem⟩ := collect_ok hok
  refine ⟨l, hl, fun x => ?_⟩
  rw [hmem]
  constructor
  · rintro ⟨p, hp, l', hl', hx⟩
    obtain ⟨e, he, rfl⟩ := List.mem_map.mp hp
    obtain ⟨l'', hl'', hmem''⟩ := h e he
    obtain rfl : l'' = l' := by simpa [hl''] using hl'
    obtain ⟨disk, hv, rfl⟩ := (hmem'' x).mp hx
    exact ⟨disk, ⟨e, he, hv⟩, rfl⟩
  · rintro ⟨disk, ⟨e, he, hv⟩, rfl⟩
    obtain ⟨l', hl', hmem'⟩ := h e he
    exact ⟨e.path, List.mem_map_of_mem he, l', hl', (hmem' _).mpr ⟨disk, hv, rfl⟩⟩

theorem found_step (hp : t.PrintedIn w.mdstat) (depth : ℕ) (d : Dev) (hs : t.NoStateWord d)
    (ih : ∀ e ∈ memberDevs t.arrays d, t.NoStateWord e → Found w t depth e) :
    Found w t (depth + 1) d := by
  cases d with
  | disk d =>
    have h := findBaseDevices_disk (w := w) depth d []
    rw [List.append_nil] at h
    refine ⟨_, h, fun x => ?_⟩
    simp [visible_leaf (d := .disk d) rfl, Dev.onDisk, shortPath]
  | part d k =>
    refine ⟨_, findBaseDevices_disk depth d (decimal k), fun x => ?_⟩
    simp [visible_leaf (d := .part d k) rfl, Dev.onDisk, shortPath, shortPath_of_append]
  | mdPart n k =>
    refine ⟨_, findBaseDevices_mdPart hp depth n k, fun x => ?_⟩
    simp [visible_leaf (d := .mdPart n k) rfl, Dev.onDisk]
  | md n =>
    unfold Found
    rw [findBaseDevices_md hp]
    cases ha : findArray t.arrays n with
    | none =>
      refine ⟨[], rfl, fun x => ?_⟩
      simp [visible_md, memberDevs, ha]
    | some a =>
      have hmembers : memberDevs t.arrays (.md n) = a.members.map Member.dev := by
        simp [memberDevs, ha]
      have hfound : ∀ e ∈ a.members.map Member.dev, Found w t depth e := by
        intro e he
        refine ih e (hmembers ▸ he) (fun k b hk => hs k b (.head ?_ hk))
        simpa only [Topology.MemberOf, hmembers] using he
      obtain ⟨l, hl, hmem⟩ := found_collect hfound
      refine ⟨l, ?_, fun x => ?_⟩
      · rw [List.map_map] at hl
        simp only [hs n a .refl ha, if_true]
        exact hl
      · rw [hmem]
        simp only [visible_md, hmembers]

end CgxLayer.Installer

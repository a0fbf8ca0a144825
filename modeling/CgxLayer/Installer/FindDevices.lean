import CgxLayer.Installer.BootDevices

namespace CgxLayer.Installer

open Text

def diskName (l : Text) : Except Failure Text :=
  match (words pyBlank l)[2]? with
  | none => .error .indexError
  | some name => .ok name

def isAlldev (name : Text) : Bool :=
  startsWith "sd".toList name || startsWith "hd".toList name || startsWith "md".toList name

def lvPath (l : Text) : Except Failure (List Text) :=
  match words pyBlank l with
  | [] => .ok []
  | [_] => .error .indexError
  | lv :: vg :: _ => .ok [devDir ++ vg ++ '/' :: lv]

/-- What `read_devs` leaves in `alldevs`, from /proc/diskstats and the output of `lvs`. -/
def readDevs (diskstats lvs : List Text) : Except Failure (List Text) := do
  let names ← diskstats.mapM diskName
  let volumes ← lvs.mapM lvPath
  return (names.filter isAlldev).map (devDir ++ ·) ++ volumes.flatten

def isBase (d : Text) : Bool := !(d.getLast?.map Char.isDigit).getD false && d.count '/' == 2

def getBaseDevs (alldevs : List Text) : List Text := alldevs.filter isBase

-- `^sd[a-z]$`
def sdDisk : Text → Bool
  | ['s', 'd', c] => c.isLower
  | _ => false

-- `^sd[a-z][0-9]$`
def sdPartition : Text → Bool
  | ['s', 'd', c, n] => c.isLower && n.isDigit
  | _ => false

def matching (skip : Option ℕ) (pattern : Text → Bool) (l : Text) : Except Failure (List Text) :=
  if skip = none then (diskName l).map (fun w => if pattern w then [devDir ++ w] else []) else .ok []

def findLine (dev devPart : Option ℕ) (l : Text) : Except Failure (List Text) := do
  let parts ← matching dev sdPartition l
  let disks ← matching devPart sdDisk l
  return parts ++ disks

def findDevices (dev devPart : Option ℕ) (diskstats : List Text) : Except Failure (List Text) :=
  (diskstats.mapM (findLine dev devPart)).map List.flatten

def setupDevs (basedevs : List Text) : List Text :=
  if 2 ≤ (sorted basedevs).length then sorted basedevs else (sorted basedevs).take 1

structure DiskStats where
  major : ℕ
  minor : ℕ
  dev : Dev
  counters : List ℕ

def padLeft (width : ℕ) (s : Text) : Text := List.replicate (width - s.length) ' ' ++ s

def DiskStats.line (e : DiskStats) : Text :=
  padLeft 4 (decimal e.major) ++ ' ' :: (padLeft 7 (decimal e.minor) ++
    ' ' :: joinWith ' ' (e.dev.name :: e.counters.map decimal))

structure VolumeLine where
  lv : Text
  vg : Text
  rest : List Text
  isWords : ∀ w ∈ lv :: vg :: rest, IsWord pyBlank w

def VolumeLine.line (v : VolumeLine) : Text := ' ' :: ' ' :: joinWith ' ' (v.lv :: v.vg :: v.rest)

structure Listing where
  entries : List DiskStats
  volumes : List VolumeLine

def Listing.diskstats (t : Listing) : List Text := t.entries.map DiskStats.line

def Listing.lvs (t : Listing) : List Text := t.volumes.map VolumeLine.line ++ [[]]

def Listing.devs (t : Listing) : List Dev := t.entries.map DiskStats.dev

/-- The superblocks that are zeroed are those of the partitions of the disks to repartition, and
the check for connected devices fails where there is no base device. -/
structure FindsDevices (t : Listing) (basedevs zeroed found : List Text) : Prop where
  partitions : ∀ p, p ∈ zeroed ↔
    ∃ d k, .part d k ∈ t.devs ∧ d.path ∈ setupDevs basedevs ∧ p = (Dev.part d k).path
  connected : found = [] ↔ basedevs = []

def Disk.short (d : Disk) : Prop := d.bus = .sd ∧ d.letters.length = 1

/-- A partition has one digit and its disk is sd with one letter exactly if the disk is listed, and
one such disk is listed if any is. -/
def ShortNamed (t : Listing) : Prop :=
  (∀ d k, .part d k ∈ t.devs → ((d.short ∧ k < 10) ↔ .disk d ∈ t.devs)) ∧
    ((∃ d, .disk d ∈ t.devs) → ∃ d : Disk, .disk d ∈ t.devs ∧ d.short)

variable {t : Listing}

theorem words_padLeft {w : Text} (width : ℕ) (s : Text) (hw : IsWord pyBlank w) :
    words pyBlank (padLeft width w ++ ' ' :: s) = w :: words pyBlank s := by
  rw [padLeft, List.append_assoc]
  induction width - w.length with
  | zero => exact words_word_blank hw s (by decide)
  | succ n ih => rw [List.replicate_succ, List.cons_append, words_cons_blank _ (by decide), ih]

theorem isWord_decimal (n : ℕ) : IsWord pyBlank (decimal n) :=
  isWord_of_printable Nat.toDigits_ne_nil (printable_decimal n)

theorem Dev.name_ne_nil (d : Dev) : d.name ≠ [] := by
  have hdisk (e : Disk) : e.name ≠ [] := fun h => e.nonempty (List.append_eq_nil_iff.mp h).2
  cases d with
  | disk e => exact hdisk e
  | part e k => exact fun h => hdisk e (List.append_eq_nil_iff.mp h).1
  | md n => exact List.cons_ne_nil _ _
  | mdPart n k => exact List.cons_ne_nil _ _

theorem diskName_line (e : DiskStats) : diskName e.line = .ok e.dev.name := by
  have hrest : ∀ w ∈ e.dev.name :: e.counters.map decimal, IsWord pyBlank w := by
    refine List.forall_mem_cons.mpr ⟨isWord_of_printable e.dev.name_ne_nil e.dev.printable, fun w hw => ?_⟩
    obtain ⟨n, -, rfl⟩ := List.mem_map.mp hw
    exact isWord_decimal n
  rw [diskName, DiskStats.line, words_padLeft _ _ (isWord_decimal _), words_padLeft _ _ (isWord_decimal _),
    words_joinWith (by decide) _ hrest]
  rfl

theorem mapM_ok {α β : Type} {f : α → Except Failure β} {g : α → β} {xs : List α}
    (h : ∀ x ∈ xs, f x = .ok (g x)) : xs.mapM f = .ok (xs.map g) := by
  induction xs with
  | nil => rfl
  | cons x xs ih =>
    obtain ⟨hx, hxs⟩ := List.forall_mem_cons.mp h
    rw [List.mapM_cons, hx, ih hxs]
    rfl

theorem mapM_lines {β : Type} {f : Text → Except Failure β} {g : Dev → β}
    (h : ∀ e : DiskStats, f e.line = .ok (g e.dev)) (t : Listing) : t.diskstats.mapM f = .ok (t.devs.map g) := by
  have hentries : ∀ e ∈ t.entries, (f ∘ DiskStats.line) e = .ok ((g ∘ DiskStats.dev) e) := fun e _ => h e
  rw [Listing.diskstats, Listing.devs, List.mapM_map, mapM_ok hentries, List.map_map]

def named (pattern : Text → Bool) (d : Dev) : List Text := if pattern d.name then [d.path] else []

theorem matching_line (pattern : Text → Bool) (e : DiskStats) :
    matching none pattern e.line = .ok (named pattern e.dev) := by
  rw [matching, if_pos rfl, diskName_line]
  rfl

theorem findDevices_disks (t : Listing) :
    findDevices (some 1) none t.diskstats = .ok (t.devs.flatMap (named sdDisk)) := by
  have hline (e : DiskStats) : findLine (some 1) none e.line = .ok (named sdDisk e.dev) := by
    rw [findLine, matching_line]
    rfl
  rw [findDevices, mapM_lines hline, List.flatMap_def]
  rfl

theorem findDevices_parts (t : Listing) :
    findDevices none (some 1) t.diskstats = .ok (t.devs.flatMap (named sdPartition)) := by
  have hline (e : DiskStats) : findLine none (some 1) e.line = .ok (named sdPartition e.dev) := by
    rw [findLine, matching_line]
    exact congrArg Except.ok (List.append_nil _)
  rw [findDevices, mapM_lines hline, List.flatMap_def]
  rfl

theorem mem_named {pattern : Text → Bool} {ds : List Dev} {p : Text} :
    p ∈ ds.flatMap (named pattern) ↔ ∃ d ∈ ds, pattern d.name = true ∧ p = d.path := by
  rw [List.mem_flatMap]
  apply exists_congr
  intro d
  rw [named]
  split_ifs with h <;> simp [h]

theorem lvPath_line (v : VolumeLine) : lvPath v.line = .ok [devDir ++ v.vg ++ '/' :: v.lv] := by
  rw [lvPath, VolumeLine.line, words_cons_blank _ (by decide), words_cons_blank _ (by decide),
    words_joinWith (by decide) _ v.isWords]

theorem isAlldev_name (d : Dev) : isAlldev d.name = true := by
  have hdisk (e : Disk) (s : Text) : isAlldev (e.name ++ s) = true := by
    cases hbus : e.bus <;> simp [isAlldev, Disk.name, hbus, Bus.text, startsWith, List.isPrefixOf]
  cases d with
  | disk e =>
    have hname := hdisk e []
    rwa [List.append_nil] at hname
  | part e k => exact hdisk e _
  | md n => simp [isAlldev, Dev.name, mdName, startsWith, List.isPrefixOf]
  | mdPart n k => simp [isAlldev, Dev.name, mdName, startsWith, List.isPrefixOf]

def VolumeLine.path (v : VolumeLine) : Text := devDir ++ v.vg ++ '/' :: v.lv

theorem readDevs_listing (t : Listing) :
    readDevs t.diskstats t.lvs = .ok (t.devs.map Dev.path ++ t.volumes.map VolumeLine.path) := by
  have hlines : ∀ v ∈ t.volumes, (lvPath ∘ VolumeLine.line) v = .ok [v.path] := fun v _ => lvPath_line v
  have hvolumes : t.lvs.mapM lvPath = .ok (t.volumes.map (fun v => [v.path]) ++ [[]]) := by
    rw [Listing.lvs, List.mapM_append, List.mapM_map, mapM_ok hlines]
    rfl
  have hfilter : (t.devs.map Dev.name).filter isAlldev = t.devs.map Dev.name := by
    apply List.filter_eq_self.mpr
    intro w hw
    obtain ⟨d, -, rfl⟩ := List.mem_map.mp hw
    exact isAlldev_name d
  have hflatten : (t.volumes.map (fun v => [VolumeLine.path v]) ++ [[]]).flatten = t.volumes.map VolumeLine.path := by
    rw [List.flatten_append, ← List.flatMap_def, ← List.map_eq_flatMap]
    exact List.append_nil _
  rw [readDevs, mapM_lines diskName_line, hvolumes]
  change Except.ok (_ ++ _) = _
  rw [hfilter, hflatten, List.map_map]
  rfl

theorem isBase_decimal (s : Text) (n : ℕ) : isBase (s ++ decimal n) = false := by
  have hne : decimal n ≠ [] := Nat.toDigits_ne_nil
  have hlast : ((s ++ decimal n).getLast?.map Char.isDigit).getD false = true := by
    rw [List.getLast?_append_of_ne_nil s hne, List.getLast?_eq_getLast_of_ne_nil hne]
    exact isDigit_of_mem_decimal (List.getLast_mem hne)
  rw [isBase, hlast]
  rfl

theorem isBase_volume (v : VolumeLine) : isBase v.path = false := by
  have hcount : 3 ≤ v.path.count '/' := by
    rw [VolumeLine.path, List.count_append, List.count_append, List.count_cons_self]
    have hdir : devDir.count '/' = 2 := by decide
    omega
  have hne : (v.path.count '/' == 2) = false := by
    rw [beq_eq_false_iff_ne]
    omega
  rw [isBase, hne, Bool.and_false]

theorem isBase_disk (d : Disk) : isBase d.path = true := by
  obtain ⟨letters, c, hletters⟩ : ∃ letters c, d.letters = letters ++ [c] := by
    rcases List.eq_nil_or_concat' d.letters with h | ⟨letters, c, h⟩
    · exact absurd h d.nonempty
    · exact ⟨letters, c, h⟩
  have hc : c.isLower = true := d.lower c (by simp [hletters])
  have hdigit : c.isDigit = false := by
    cases hc' : c.isDigit with
    | false => rfl
    | true =>
      have hlower := toNat_of_isLower hc
      have hdigit := toNat_of_isDigit hc'
      omega
  have hslash : d.letters.count '/' = 0 := by
    apply List.count_eq_zero.mpr
    intro hmem
    have hlower := d.lower _ hmem
    revert hlower
    decide
  have hcount : d.path.count '/' = 2 := by
    rw [Disk.path, Disk.name, List.count_append, List.count_append, hslash]
    cases d.bus <;> rfl
  have hlast : d.path.getLast? = some c := by
    rw [Disk.path, Disk.name, hletters, ← List.append_assoc, ← List.append_assoc]
    exact List.getLast?_concat ..
  rw [isBase, hcount, hlast, Option.map_some, Option.getD_some, hdigit]
  rfl

theorem isBase_path (d : Dev) : isBase d.path = true ↔ ∃ e : Disk, d = .disk e := by
  have hdecimal (s s' : Text) (n : ℕ) (hs : s = s' ++ decimal n) : isBase s = false := hs ▸ isBase_decimal s' n
  cases d with
  | disk e => exact ⟨fun _ => ⟨e, rfl⟩, fun _ => isBase_disk e⟩
  | part e k => simp [hdecimal (Dev.part e k).path (devDir ++ e.name) k (by simp [Dev.path, Dev.name])]
  | md n => simp [hdecimal (Dev.md n).path (devDir ++ "md".toList) n (by simp [Dev.path, Dev.name, mdName])]
  | mdPart n k =>
    simp [hdecimal (Dev.mdPart n k).path (devDir ++ (mdName n ++ ['p'])) k (by simp [Dev.path, Dev.name])]

theorem mem_getBaseDevs (t : Listing) (p : Text) :
    p ∈ getBaseDevs (t.devs.map Dev.path ++ t.volumes.map VolumeLine.path) ↔
      ∃ d : Disk, .disk d ∈ t.devs ∧ p = d.path := by
  rw [getBaseDevs, List.mem_filter, List.mem_append]
  constructor
  · rintro ⟨hp | hp, hbase⟩
    · obtain ⟨d, hd, rfl⟩ := List.mem_map.mp hp
      obtain ⟨e, rfl⟩ := (isBase_path d).mp hbase
      exact ⟨e, hd, rfl⟩
    · obtain ⟨v, -, rfl⟩ := List.mem_map.mp hp
      rw [isBase_volume] at hbase
      cases hbase
  · rintro ⟨d, hd, rfl⟩
    exact ⟨.inl (List.mem_map.mpr ⟨.disk d, hd, rfl⟩), isBase_disk d⟩

theorem mem_setupDevs {basedevs : List Text} {p : Text} : p ∈ setupDevs basedevs ↔ p ∈ basedevs := by
  rw [setupDevs]
  split_ifs with h
  · exact mem_sorted
  · rw [List.take_of_length_le (by omega), mem_sorted]

theorem sdDisk_iff {w : Text} : sdDisk w = true ↔ ∃ c, w = "sd".toList ++ [c] ∧ c.isLower = true := by
  constructor
  · intro h
    unfold sdDisk at h
    split at h
    · exact ⟨_, rfl, h⟩
    · cases h
  · rintro ⟨c, rfl, hc⟩
    exact hc

theorem sdPartition_iff {w : Text} : sdPartition w = true ↔
    ∃ c n, w = "sd".toList ++ [c, n] ∧ c.isLower = true ∧ n.isDigit = true := by
  constructor
  · intro h
    unfold sdPartition at h
    split at h
    · obtain ⟨hc, hn⟩ := Bool.and_eq_true_iff.mp h
      exact ⟨_, _, rfl, hc, hn⟩
    · cases h
  · rintro ⟨c, n, rfl, hc, hn⟩
    exact Bool.and_eq_true_iff.mpr ⟨hc, hn⟩

theorem short_cases {d : Disk} {s rest : Text} (h : d.name ++ s = "sd".toList ++ rest) :
    d.bus = .sd ∧ d.letters ++ s = rest := by
  rw [Disk.name, List.append_assoc] at h
  obtain ⟨hbus, hrest⟩ := List.append_inj h (by rw [Bus.text_length]; rfl)
  refine ⟨?_, hrest⟩
  cases hd : d.bus with
  | sd => rfl
  | hd =>
    rw [hd] at hbus
    cases hbus

theorem not_sd_mdName {s : Text} {n : ℕ} {rest : Text} : mdName n ++ s ≠ "sd".toList ++ rest := by
  intro h
  cases List.head_eq_of_cons_eq h

theorem length_decimal_pos (n : ℕ) : 0 < (decimal n).length := List.length_pos_iff.mpr Nat.toDigits_ne_nil

theorem letters_pos (d : Disk) : 0 < d.letters.length := List.length_pos_iff.mpr d.nonempty

theorem length_decimal_one {n : ℕ} : (decimal n).length ≤ 1 ↔ n < 10 :=
  Nat.length_toDigits_le_iff (by decide) (by decide)

theorem sdDisk_name (d : Dev) : sdDisk d.name = true ↔ ∃ e : Disk, d = .disk e ∧ e.short := by
  rw [sdDisk_iff]
  constructor
  · rintro ⟨c, hname, -⟩
    cases d with
    | disk e =>
      rw [Dev.name, ← List.append_nil e.name] at hname
      obtain ⟨hbus, hletters⟩ := short_cases hname
      rw [List.append_nil] at hletters
      exact ⟨e, rfl, hbus, by rw [hletters]; rfl⟩
    | part e k =>
      obtain ⟨-, hletters⟩ := short_cases hname
      have hlen := congrArg List.length hletters
      rw [List.length_append, List.length_singleton] at hlen
      have hpos := letters_pos e
      have hpos' := length_decimal_pos k
      omega
    | md n =>
      rw [Dev.name, ← List.append_nil (mdName n)] at hname
      exact absurd hname not_sd_mdName
    | mdPart n k => exact absurd hname not_sd_mdName
  · rintro ⟨e, rfl, hbus, hlen⟩
    obtain ⟨c, hc⟩ := List.length_eq_one_iff.mp hlen
    exact ⟨c, by rw [Dev.name, Disk.name, hbus, hc]; rfl, e.lower c (by rw [hc]; exact List.mem_singleton_self c)⟩

theorem sdPartition_name (d : Dev) :
    sdPartition d.name = true ↔ ∃ (e : Disk) (k : ℕ), d = .part e k ∧ e.short ∧ k < 10 := by
  rw [sdPartition_iff]
  constructor
  · rintro ⟨c, n, hname, -, hn⟩
    cases d with
    | disk e =>
      rw [Dev.name, ← List.append_nil e.name] at hname
      obtain ⟨-, hletters⟩ := short_cases hname
      rw [List.append_nil] at hletters
      have hlower := toNat_of_isLower (e.lower n (by rw [hletters]; simp))
      have hdigit := toNat_of_isDigit hn
      omega
    | part e k =>
      obtain ⟨hbus, hletters⟩ := short_cases hname
      have hlen := congrArg List.length hletters
      rw [List.length_append, List.length_cons, List.length_singleton] at hlen
      have hpos := letters_pos e
      have hpos' := length_decimal_pos k
      exact ⟨e, k, rfl, ⟨hbus, by omega⟩, length_decimal_one.mp (by omega)⟩
    | md n =>
      rw [Dev.name, ← List.append_nil (mdName n)] at hname
      exact absurd hname not_sd_mdName
    | mdPart n k => exact absurd hname not_sd_mdName
  · rintro ⟨e, k, rfl, ⟨hbus, hlen⟩, hk⟩
    obtain ⟨c, hc⟩ := List.length_eq_one_iff.mp hlen
    have hpos := length_decimal_pos k
    have hone : (decimal k).length = 1 := by
      have hle := length_decimal_one.mpr hk
      omega
    obtain ⟨n, hn⟩ := List.length_eq_one_iff.mp hone
    refine ⟨c, n, ?_, e.lower c (by rw [hc]; exact List.mem_singleton_self c),
      isDigit_of_mem_decimal (by rw [hn]; exact List.mem_singleton_self n)⟩
    rw [Dev.name, Disk.name, hbus, hc, hn]
    rfl

theorem takeWhile_letters (d : Disk) (k : ℕ) : (d.letters ++ decimal k).takeWhile Char.isLower = d.letters := by
  have hnone : (decimal k).takeWhile Char.isLower = [] := by
    cases hk : decimal k with
    | nil => rfl
    | cons c s =>
      apply List.takeWhile_cons_of_neg
      intro hlower
      have hlower := toNat_of_isLower hlower
      have hdigit := toNat_of_isDigit (isDigit_of_mem_decimal (n := k) (hk ▸ List.mem_cons_self ..))
      omega
  rw [List.takeWhile_append_of_pos d.lower, hnone, List.append_nil]

theorem part_path_injective {d e : Disk} {k l : ℕ} (h : (Dev.part d k).path = (Dev.part e l).path) :
    d = e ∧ k = l := by
  have hname : d.name ++ decimal k = e.name ++ decimal l := List.append_cancel_left h
  obtain ⟨hbus, hrest⟩ := List.append_inj (by simpa [Disk.name] using hname) (by simp [Bus.text_length])
  have hletters := congrArg (List.takeWhile Char.isLower) hrest
  rw [takeWhile_letters, takeWhile_letters] at hletters
  rw [hletters] at hrest
  have hsame : d.name = e.name := by rw [Disk.name, Disk.name, hbus, hletters]
  exact ⟨Disk.name_injective hsame, decimal_injective (List.append_cancel_left hrest)⟩

def alldevsOf (t : Listing) : List Text := t.devs.map Dev.path ++ t.volumes.map VolumeLine.path

theorem mem_zeroed {p : Text} : p ∈ t.devs.flatMap (named sdPartition) ↔
    ∃ d k, .part d k ∈ t.devs ∧ (d.short ∧ k < 10) ∧ p = (Dev.part d k).path := by
  rw [mem_named]
  constructor
  · rintro ⟨dev, hdev, hname, rfl⟩
    obtain ⟨d, k, rfl, hshort⟩ := (sdPartition_name dev).mp hname
    exact ⟨d, k, hdev, hshort, rfl⟩
  · rintro ⟨d, k, hdev, hshort, rfl⟩
    exact ⟨_, hdev, (sdPartition_name _).mpr ⟨d, k, rfl, hshort⟩, rfl⟩

theorem mem_setupDevs_listing {d : Disk} : d.path ∈ setupDevs (getBaseDevs (alldevsOf t)) ↔ .disk d ∈ t.devs := by
  rw [mem_setupDevs, alldevsOf, mem_getBaseDevs]
  constructor
  · rintro ⟨e, he, hpath⟩
    rwa [Disk.path_injective hpath]
  · exact fun hd => ⟨d, hd, rfl⟩

theorem partitions_iff (t : Listing) :
    (∀ p, p ∈ t.devs.flatMap (named sdPartition) ↔
      ∃ d k, .part d k ∈ t.devs ∧ d.path ∈ setupDevs (getBaseDevs (alldevsOf t)) ∧ p = (Dev.part d k).path) ↔
      ∀ d k, .part d k ∈ t.devs → ((d.short ∧ k < 10) ↔ .disk d ∈ t.devs) := by
  constructor
  · intro h d k hdev
    constructor
    · intro hshort
      obtain ⟨e, l, -, hmem, hpath⟩ := (h _).mp (mem_zeroed.mpr ⟨d, k, hdev, hshort, rfl⟩)
      obtain ⟨rfl, rfl⟩ := part_path_injective hpath
      exact mem_setupDevs_listing.mp hmem
    · intro hdisk
      obtain ⟨e, l, -, hshort, hpath⟩ :=
        mem_zeroed.mp ((h _).mpr ⟨d, k, hdev, mem_setupDevs_listing.mpr hdisk, rfl⟩)
      obtain ⟨rfl, rfl⟩ := part_path_injective hpath
      exact hshort
  · intro h p
    rw [mem_zeroed]
    apply exists_congr
    intro d
    apply exists_congr
    intro k
    rw [mem_setupDevs_listing]
    exact and_congr_right (fun hdev => and_congr_left (fun _ => h d k hdev))

theorem disks_eq_nil : t.devs.flatMap (named sdDisk) = [] ↔ ¬ ∃ d : Disk, .disk d ∈ t.devs ∧ d.short := by
  rw [List.eq_nil_iff_forall_not_mem, ← not_exists, not_iff_not]
  constructor
  · rintro ⟨p, hp⟩
    obtain ⟨dev, hdev, hname, -⟩ := mem_named.mp hp
    obtain ⟨d, rfl, hshort⟩ := (sdDisk_name dev).mp hname
    exact ⟨d, hdev, hshort⟩
  · rintro ⟨d, hdev, hshort⟩
    exact ⟨_, mem_named.mpr ⟨_, hdev, (sdDisk_name _).mpr ⟨d, rfl, hshort⟩, rfl⟩⟩

theorem getBaseDevs_eq_nil : getBaseDevs (alldevsOf t) = [] ↔ ¬ ∃ d : Disk, .disk d ∈ t.devs := by
  rw [List.eq_nil_iff_forall_not_mem, ← not_exists, not_iff_not]
  constructor
  · rintro ⟨p, hp⟩
    obtain ⟨d, hd, -⟩ := (mem_getBaseDevs t p).mp hp
    exact ⟨d, hd⟩
  · rintro ⟨d, hd⟩
    exact ⟨_, (mem_getBaseDevs t _).mpr ⟨d, hd, rfl⟩⟩

theorem findsDevices_iff (t : Listing) :
    FindsDevices t (getBaseDevs (alldevsOf t)) (t.devs.flatMap (named sdPartition)) (t.devs.flatMap (named sdDisk)) ↔
      ShortNamed t := by
  have hconnected : (t.devs.flatMap (named sdDisk) = [] ↔ getBaseDevs (alldevsOf t) = []) ↔
      ((∃ d, .disk d ∈ t.devs) → ∃ d : Disk, .disk d ∈ t.devs ∧ d.short) := by
    rw [disks_eq_nil, getBaseDevs_eq_nil, not_iff_not]
    exact ⟨fun h => h.mpr, fun h => ⟨fun ⟨d, hd, _⟩ => ⟨d, hd⟩, h⟩⟩
  rw [ShortNamed, ← partitions_iff, ← hconnected]
  exact ⟨fun h => ⟨h.partitions, h.connected⟩, fun h => ⟨h.1, h.2⟩⟩

theorem findsDevices_iff_shortNamed (t : Listing) : ∃ alldevs zeroed found,
    readDevs t.diskstats t.lvs = .ok alldevs ∧ findDevices none (some 1) t.diskstats = .ok zeroed ∧
      findDevices (some 1) none t.diskstats = .ok found ∧
      (FindsDevices t (getBaseDevs alldevs) zeroed found ↔ ShortNamed t) :=
  ⟨_, _, _, readDevs_listing t, findDevices_parts t, findDevices_disks t, findsDevices_iff t⟩

def tenParts : Listing where
  entries := ⟨8, 0, .disk diskA, []⟩ :: (List.range 10).map (fun i => ⟨8, i + 1, .part diskA (i + 1), []⟩)
  volumes := []

theorem sda10_not_zeroed : ¬ ∃ alldevs zeroed found,
    readDevs tenParts.diskstats tenParts.lvs = .ok alldevs ∧
      findDevices none (some 1) tenParts.diskstats = .ok zeroed ∧
      findDevices (some 1) none tenParts.diskstats = .ok found ∧
      FindsDevices tenParts (getBaseDevs alldevs) zeroed found := by
  rintro ⟨alldevs, zeroed, found, halldevs, hzeroed, hfound, h⟩
  rw [readDevs_listing] at halldevs
  rw [findDevices_parts] at hzeroed
  rw [findDevices_disks] at hfound
  cases halldevs
  cases hzeroed
  cases hfound
  obtain ⟨hparts, -⟩ := (findsDevices_iff tenParts).mp h
  have hdev : Dev.part diskA 10 ∈ tenParts.devs := by simp [tenParts, Listing.devs]
  have hdisk : Dev.disk diskA ∈ tenParts.devs := by simp [tenParts, Listing.devs]
  exact absurd ((hparts diskA 10 hdev).mpr hdisk).2 (lt_irrefl 10)

end CgxLayer.Installer

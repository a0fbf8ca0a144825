import CgxLayer.Installer.BaseDevices

namespace CgxLayer.Installer

open Text Relation

variable {w : Probe} {t : Topology}

theorem exists_found (hp : t.PrintedIn w.mdstat) (d : Dev) (hs : t.NoStateWord d) :
    ∃ n, ∀ depth ≥ n, Found w t depth d := by
  have hlevel : ∃ n, ∀ depth ≥ n, t.NoStateWord d → Found w t depth d := by
    apply Acyclic.exists_level (P := fun n d => t.NoStateWord d → Found w t n d)
      (fun n d ih hs => found_step hp n d hs ih)
    exact t.acc_member d
  obtain ⟨n, hn⟩ := hlevel
  exact ⟨n, fun depth hdepth => hn depth hdepth hs⟩

theorem not_ok_of_stateWord (hp : t.PrintedIn w.mdstat) {d : Dev} {n : ℕ} {a : MdArray}
    (h : ReflTransGen t.MemberOf d (.md n)) (ha : findArray t.arrays n = some a)
    (hstate : a.state ≠ none) (depth : ℕ) : ¬ ∃ l, findBaseDevices w depth d.path = .ok l := by
  induction h using ReflTransGen.head_induction_on generalizing depth with
  | refl =>
    cases depth with
    | zero => simp [findBaseDevices]
    | succ depth => simp [findBaseDevices_md hp, ha, hstate]
  | @head d e hde _ ih =>
    cases depth with
    | zero => simp [findBaseDevices]
    | succ depth =>
      cases d with
      | disk d => simp [Topology.MemberOf, memberDevs] at hde
      | part d k => simp [Topology.MemberOf, memberDevs] at hde
      | mdPart n k => simp [Topology.MemberOf, memberDevs] at hde
      | md k =>
        rw [findBaseDevices_md hp]
        cases hb : findArray t.arrays k with
        | none => simp [Topology.MemberOf, memberDevs, hb] at hde
        | some b =>
          simp only [Topology.MemberOf, memberDevs, hb, Option.map_some, Option.getD_some] at hde
          obtain ⟨m, hm, rfl⟩ := List.mem_map.mp hde
          dsimp only
          split_ifs with hword
          · exact collect_error (List.mem_map_of_mem hm) (ih depth)
          · simp

def BaseOf (w : Probe) (t : Topology) (depth : ℕ) (d : Dev) : Prop :=
  ∃ l, findBaseDevices w depth d.path = .ok l ∧
    ∀ x, x ∈ l ↔ ∃ disk, t.SitsOn d disk ∧ x = disk.path

def BootOf (w : Probe) (t : Topology) (depth : ℕ) (d : Dev) : Prop :=
  ∀ m, bootDevice m = .ok d.path → ∃ l, findBootDevices w depth m = .ok l ∧
    l.Pairwise (· < ·) ∧ ∀ x, x ∈ l ↔ ∃ disk, t.SitsOn d disk ∧ x = disk.path

def TracesDisks (w : Probe) (t : Topology) (d : Dev) : Prop :=
  ∃ n, ∀ depth ≥ n, BaseOf w t depth d ∧ BootOf w t depth d

/-- Every disk under the device has a one-letter name and is reached without passing a partition
of an array or an array printed with a state word. -/
def Traceable (t : Topology) (d : Dev) : Prop :=
  t.NoStateWord d ∧ ∀ disk, t.SitsOn d disk → disk.letters.length = 1 ∧ t.Visible d disk

theorem BaseOf.bootOf {depth : ℕ} {d : Dev} (h : BaseOf w t depth d) : BootOf w t depth d := by
  intro m hm
  obtain ⟨l, hl, hmem⟩ := h
  refine ⟨sortUniq l, by simp [findBootDevices, hm, hl], sortUniq_pairwise l, fun x => ?_⟩
  rw [mem_sortUniq, hmem]

theorem Disk.name_length (d : Disk) : d.name.length = 2 + d.letters.length := by
  simp [Disk.name, Bus.text_length]

theorem shortPath_eq_path {d : Disk} (h : d.letters.length = 1) : shortPath d = d.path := by
  have hlen : d.name.take 3 = d.name := by
    apply List.take_of_length_le
    rw [d.name_length]
    omega
  rw [shortPath, hlen, Disk.path]

theorem length_of_path_eq_shortPath {d e : Disk} (h : d.path = shortPath e) :
    d.letters.length = 1 := by
  have hname : d.name = e.name.take 3 := List.append_cancel_left h
  have hlen := congrArg List.length hname
  have hpos := List.length_pos_iff.mpr d.nonempty
  simp only [List.length_take, Disk.name_length] at hlen
  omega

theorem baseOf_iff {depth : ℕ} {d : Dev} (h : Found w t depth d) :
    BaseOf w t depth d ↔
      ∀ disk, t.SitsOn d disk → disk.letters.length = 1 ∧ t.Visible d disk := by
  obtain ⟨l, hl, hmem⟩ := h
  constructor
  · rintro ⟨l', hl', hmem'⟩
    obtain rfl : l = l' := by simpa [hl] using hl'
    have hshort : ∀ disk, t.SitsOn d disk → ∃ e, t.Visible d e ∧ disk.path = shortPath e := by
      intro disk hdisk
      exact (hmem _).mp ((hmem' _).mpr ⟨disk, hdisk, rfl⟩)
    intro disk hdisk
    obtain ⟨e, he, hpath⟩ := hshort disk hdisk
    obtain ⟨e', -, hpath'⟩ := hshort e he.sitsOn
    have hsame : disk = e := by
      apply Disk.path_injective
      rw [hpath, shortPath_eq_path (length_of_path_eq_shortPath hpath')]
    exact ⟨length_of_path_eq_shortPath hpath, hsame ▸ he⟩
  · intro hsits
    refine ⟨l, hl, fun x => ?_⟩
    rw [hmem]
    constructor
    · rintro ⟨disk, hv, rfl⟩
      exact ⟨disk, hv.sitsOn, shortPath_eq_path (hsits disk hv.sitsOn).1⟩
    · rintro ⟨disk, hd, rfl⟩
      exact ⟨disk, (hsits disk hd).2, (shortPath_eq_path (hsits disk hd).1).symm⟩

theorem tracesDisks_iff_traceable (w : Probe) (t : Topology) (hp : t.PrintedIn w.mdstat) (d : Dev) :
    TracesDisks w t d ↔ Traceable t d := by
  constructor
  · rintro ⟨n, hn⟩
    have hstate : t.NoStateWord d := by
      intro k a hreach ha
      by_contra hne
      obtain ⟨l, hl, -⟩ := (hn n le_rfl).1
      exact not_ok_of_stateWord hp hreach ha hne n ⟨l, hl⟩
    obtain ⟨k, hk⟩ := exists_found hp d hstate
    exact ⟨hstate, (baseOf_iff (hk (max n k) (by omega))).mp (hn (max n k) (by omega)).1⟩
  · rintro ⟨hstate, hsits⟩
    obtain ⟨n, hn⟩ := exists_found hp d hstate
    refine ⟨n, fun depth hdepth => ?_⟩
    have hbase := (baseOf_iff (hn depth hdepth)).mpr hsits
    exact ⟨hbase, hbase.bootOf⟩

def diskA : Disk := ⟨.sd, ['a'], by decide, by decide⟩

def diskB : Disk := ⟨.sd, ['b'], by decide, by decide⟩

def mirror : MdArray where
  number := 0
  state := none
  level := 1
  members := [⟨.part diskB 1, 1, []⟩, ⟨.part diskA 1, 0, []⟩]
  nonempty := by simp

def devRank : Dev → ℕ
  | .disk _ => 0
  | .part _ _ => 0
  | .md _ => 1
  | .mdPart _ _ => 2

theorem mem_memberDevs_mirror {d e : Dev} : e ∈ memberDevs [mirror] d ↔
    d = .md 0 ∧ (e = .part diskB 1 ∨ e = .part diskA 1) := by
  match d with
  | .disk d => simp [memberDevs]
  | .part d k => simp [memberDevs]
  | .mdPart n k => simp [memberDevs]
  | .md 0 => simp [memberDevs, findArray, mirror]
  | .md (n + 1) => simp [memberDevs, findArray, mirror]

def mirrored : Topology where
  arrays := [mirror]
  numbers := by decide
  acyclic := by
    apply Acyclic.not_transGen_of_rank devRank
    rintro d e (h | ⟨n, k, rfl, rfl⟩)
    · obtain ⟨rfl, rfl | rfl⟩ := mem_memberDevs_mirror.mp h <;> simp [devRank]
    · simp [devRank]

def mirroredProbe : Probe where
  blkid := fun _ => none
  mdstat := ["Personalities : [raid1]".toList, mirror.line, "unused devices: <none>".toList]
  pvs := none

theorem mirrored_printedIn : mirrored.PrintedIn mirroredProbe.mdstat := by
  unfold Topology.PrintedIn
  decide

theorem sitsOn_mirrored {d : Dev} {disk : Disk} (h : mirrored.SitsOn d disk) (hd : d = .md 0) :
    ∃ e, mirrored.MemberOf d e ∧ e.onDisk = some disk ∧ (disk = diskA ∨ disk = diskB) := by
  subst hd
  obtain ⟨e, hde, he⟩ := h
  rcases ReflTransGen.cases_head hde with rfl | ⟨c, hc, hce⟩
  · cases he
  · have hmember : mirrored.MemberOf (.md 0) c := by
      rcases hc with hc | ⟨n, k, h, -⟩
      · exact hc
      · cases h
    have hpart : ∀ d k, c = .part d k → c = e := by
      rintro d k rfl
      rcases ReflTransGen.cases_head hce with h | ⟨c', hc' | ⟨n, k, h, -⟩, -⟩
      · exact h
      · simp [memberDevs] at hc'
      · cases h
    obtain ⟨-, rfl | rfl⟩ := mem_memberDevs_mirror.mp hmember
    · obtain rfl := hpart _ _ rfl
      cases he
      exact ⟨_, hmember, rfl, .inr rfl⟩
    · obtain rfl := hpart _ _ rfl
      cases he
      exact ⟨_, hmember, rfl, .inl rfl⟩

theorem traceable_mirror : Traceable mirrored (.md 0) := by
  constructor
  · intro n a _ ha
    obtain rfl := List.mem_singleton.mp (List.mem_of_find?_eq_some ha)
    rfl
  · intro disk hdisk
    obtain ⟨e, he, hon, rfl | rfl⟩ := sitsOn_mirrored hdisk rfl
    · exact ⟨rfl, e, .single he, hon⟩
    · exact ⟨rfl, e, .single he, hon⟩

theorem tracesDisks_mirror : mirrored.PrintedIn mirroredProbe.mdstat ∧
    TracesDisks mirroredProbe mirrored (.md 0) :=
  ⟨mirrored_printedIn,
    (tracesDisks_iff_traceable _ _ mirrored_printedIn (.md 0)).mpr traceable_mirror⟩

theorem mirror_partition_not_traced : mirrored.PrintedIn mirroredProbe.mdstat ∧
    partitionDevice (Dev.md 0).path 1 = (Dev.mdPart 0 1).path ∧
    ¬ TracesDisks mirroredProbe mirrored (.mdPart 0 1) := by
  refine ⟨mirrored_printedIn, partitionDevice_md 0 1, ?_⟩
  rintro ⟨n, hn⟩
  obtain ⟨l, hl, hmem⟩ := (hn (n + 1) (by omega)).1
  rw [findBaseDevices_mdPart mirrored_printedIn] at hl
  obtain rfl := Except.ok.inj hl
  have hsits : mirrored.SitsOn (.mdPart 0 1) diskA := by
    refine ⟨.part diskA 1, ?_, rfl⟩
    apply ReflTransGen.head (b := .md 0) (.inr ⟨0, 1, rfl, rfl⟩)
    exact .single (.inl (mem_memberDevs_mirror.mpr ⟨rfl, .inr rfl⟩))
  simpa using (hmem diskA.path).mpr ⟨diskA, hsits, rfl⟩

end CgxLayer.Installer

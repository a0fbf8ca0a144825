import CgxLayer.Installer.AutoVolumes
import CgxLayer.Installer.CreatedFstab
import CgxLayer.Installer.FindDevices

namespace CgxLayer.Installer

open Text

/-- What the commands of the automatic install find: the partition numbers that parted answers with,
the array nodes that exist at the two `create_raid`, the memory and the volume's size. -/
structure AutoWorld where
  numbers : Text → ℕ × ℕ
  bootRaid : Text → Bool
  lvmRaid : Text → Bool
  free : FreeRun
  pvdisplay : Text

theorem vg01_legal : ∀ c ∈ "vg01".toList, lvmChar c = true := by decide

theorem swap_legal : ∀ c ∈ "swap".toList, lvmChar c = true := by decide

def vg01 : LvmName := ⟨"vg01".toList, vg01_legal, 'v', "g01".toList, rfl, by decide⟩

def swapVolume : LvmName := ⟨"swap".toList, swap_legal, 's', "wap".toList, rfl, by decide⟩

-- `count` is empty for the first disk, then 2, 3 and so on.
def efiMount (i : ℕ) : Text := efiPoint ++ if i = 0 then [] else decimal (i + 1)

def isRaid (basedevs : List Text) : Bool := 2 ≤ (sorted basedevs).length

def bootDest (efiSystem raid : Bool) (i : ℕ) : Dest :=
  if efiSystem then .fs .vfat (efiMount i) else if raid then .raid else .fs .ext4 bootPoint

def restDest (raid : Bool) : Dest := if raid then .raid else .lvm

def partitionCalls (efiSystem raid : Bool) (a : AutoWorld) (devs : List Text) : List Call :=
  devs.zipIdx.flatMap (fun (d, i) =>
    [.createPartition d (a.numbers d).1 (bootDest efiSystem raid i),
      .createPartition d (a.numbers d).2 (restDest raid)])

def raidCalls (efiSystem raid : Bool) (a : AutoWorld) : List Call :=
  (if efiSystem = false ∧ raid = true then [.createRaid a.bootRaid (some (.fs .ext4 bootPoint))] else []) ++
    if raid then [.createRaid a.lvmRaid (some .lvm)] else []

def LvCall.toCall (c : LvCall) : Call :=
  if c.name = "root".toList then .createLv vg01 rootName (.fs .ext4 rootPoint)
  else .createLv vg01 swapVolume .swap

/-- The automatic install up to the mounting, giving the /tmp/fstab that it leaves, or none where it
stops for want of space. -/
def autoInstall (sh : Sh) (efiSystem fullDisk : Bool) (a : AutoWorld) (basedevs : List Text) (fstab : Text) :
    Except PyError (Option Text) :=
  let devs := setupDevs basedevs
  let raid := isRaid basedevs
  match callAll sh fstab (partitionCalls efiSystem raid a devs ++ raidCalls efiSystem raid a) with
  | .error e => .error (.failure e)
  | .ok fstab =>
    if devs = [] then .error (.failure .indexError)
    else
      match createVolumes fullDisk a.free a.pvdisplay with
      | .returned => .ok none
      | .raised e => .error e
      | .created calls =>
        match callAll sh fstab (calls.map LvCall.toCall) with
        | .error e => .error (.failure e)
        | .ok fstab => .ok (some fstab)

def ext4Info (dev : Text) : FsInfo := ⟨dev, FsType.ext4.text, some "defaults".toList⟩

def vfatInfo (dev : Text) : FsInfo := ⟨dev, FsType.vfat.text, some "defaults".toList⟩

def bootDev (a : AutoWorld) (basedevs : List Text) : Option Text :=
  if isRaid basedevs then nextRaid a.bootRaid
  else (setupDevs basedevs).head?.map (fun d => partitionDevice d (a.numbers d).1)

def bootEntries (efiSystem : Bool) (a : AutoWorld) (basedevs : List Text) : List (Text × FsInfo) :=
  if efiSystem then
    (setupDevs basedevs).zipIdx.map (fun (d, i) => (efiMount i, vfatInfo (partitionDevice d (a.numbers d).1)))
  else ((bootDev a basedevs).map (fun dev => (bootPoint, ext4Info dev))).toList

def rootEntry : Text × FsInfo := (rootPoint, ext4Info (lvDevice vg01.text rootName.text))

variable {sh : Sh} {efiSystem fullDisk : Bool} {a : AutoWorld} {basedevs : List Text} {fstab fstab' : Text}

theorem call_device {c : Call} (h : call sh fstab c = .ok fstab') : ∃ dev, c.device = some dev := by
  cases c with
  | createPartition dev num partid => exact ⟨_, rfl⟩
  | createRaid present dest =>
    simp only [call, createRaid] at h
    cases hdev : nextRaid present with
    | none =>
      rw [hdev] at h
      cases h
    | some dev => exact ⟨dev, hdev⟩
  | createLv vg name dest => exact ⟨_, rfl⟩

theorem callAll_device {cs : List Call} (h : callAll sh fstab cs = .ok fstab') :
    ∀ c ∈ cs, ∃ dev, c.device = some dev := by
  induction cs generalizing fstab with
  | nil => exact fun c hc => absurd hc List.not_mem_nil
  | cons c cs ih =>
    rw [callAll] at h
    cases hc : call sh fstab c with
    | error e =>
      rw [hc] at h
      cases h
    | ok next =>
      rw [hc] at h
      exact List.forall_mem_cons.mpr ⟨call_device hc, ih h⟩

theorem created_calls {free : FreeRun} {pvdisplay : Text} {calls : List LvCall}
    (h : createVolumes fullDisk free pvdisplay = .created calls) :
    ∃ size, calls = [rootCall size] ∨ ∃ size', calls = [rootCall size, swapCall size'] := by
  unfold createVolumes at h
  split at h
  · cases h
  · split_ifs at h
    split at h
    · cases h
    · unfold allocate at h
      split at h
      · cases h
      · cases h
      · dsimp only at h
        cases h
        refine ⟨_, (ite_eq_or_eq _ _ _).imp id (fun hboth => ⟨_, hboth⟩)⟩

theorem given_created {free : FreeRun} {pvdisplay : Text} {calls : List LvCall}
    (h : createVolumes fullDisk free pvdisplay = .created calls) :
    (calls.map LvCall.toCall).filterMap Call.given = [rootEntry] := by
  obtain ⟨size, rfl | ⟨size', rfl⟩⟩ := created_calls h <;> rfl

def Readable (lines : List Text) : Prop := ∀ l ∈ lines, ∃ e, fstabEntry l = .ok e

theorem entry_of_words {l dev mountPoint type opts : Text} {rest : List Text}
    (h : words pyBlank l = dev :: mountPoint :: type :: opts :: rest) : ∃ e, fstabEntry l = .ok e := by
  rw [← words_strip l] at h
  unfold fstabEntry
  cases hs : strip pyBlank l with
  | nil => exact ⟨_, rfl⟩
  | cons c s =>
    rw [hs] at h
    dsimp only
    rw [h]
    dsimp only
    split_ifs <;> exact ⟨_, rfl⟩

theorem entered_readable {sh : Sh} {fstab dev mountPoint type opts : Text} {rest : List Text}
    (hend : Terminated fstab) (hws : ∀ w ∈ dev :: mountPoint :: type :: opts :: rest, Spelled sh.world w)
    (hoption : dev ≠ "-n".toList) (hread : Readable (fileLines fstab)) :
    Readable (fileLines (sh.call ("echo ".toList ++ tabbed (dev :: mountPoint :: type :: opts :: rest) ++
      " >>/tmp/fstab".toList) fstab)) := by
  obtain ⟨-, hlines⟩ := entered_line hend hws (List.cons_ne_nil _ _) (fun h => hoption (Option.some.inj h))
  rw [hlines]
  intro l hl
  obtain hl | hl := List.mem_append.mp hl
  · exact hread l hl
  · obtain rfl := List.mem_singleton.mp hl
    exact entry_of_words (words_joinWith (by decide) _ (fun w hw => (hws w hw).isWord))

def Dest.line (dev : Text) : Dest → List Text
  | .fs type mountPoint => [dev, mountPoint, type.text, "defaults".toList, "0".toList,
      if mountPoint = rootPoint then "1".toList else "2".toList]
  | .swap => [dev, "swap".toList, "swap".toList, "sw".toList, "0".toList, "0".toList]
  | .lvm => []
  | .raid => []

theorem line_spelled (W : Shell.World) {dev : Text} {dest : Dest} (hdev : Spelled W dev)
    (hmount : dest.MountSpelled W) :
    ∀ w ∈ dest.line dev, Spelled W w := by
  have hfixed := spelled_fixed W
  cases dest with
  | fs type mountPoint =>
    have htype : Spelled W type.text := by cases type <;> exact hfixed _ (by decide)
    have hpass : Spelled W (if mountPoint = rootPoint then "1".toList else "2".toList) := by
      split_ifs <;> exact hfixed _ (by decide)
    simp only [Dest.line, List.forall_mem_cons]
    exact ⟨hdev, hmount, htype, hfixed _ (by decide), hfixed _ (by decide), hpass,
      fun w hw => absurd hw List.not_mem_nil⟩
  | swap =>
    simp only [Dest.line, List.forall_mem_cons]
    exact ⟨hdev, hfixed _ (by decide), hfixed _ (by decide), hfixed _ (by decide),
      hfixed _ (by decide), hfixed _ (by decide), fun w hw => absurd hw List.not_mem_nil⟩
  | lvm => exact fun w hw => absurd hw List.not_mem_nil
  | raid => exact fun w hw => absurd hw List.not_mem_nil

theorem setDevContents_readable {dev : Text} {dest : Dest} (hend : Terminated fstab)
    (hdev : Spelled sh.world dev) (hoption : dev ≠ "-n".toList) (hmount : dest.MountSpelled sh.world)
    (hread : Readable (fileLines fstab)) : Readable (fileLines (setDevContents sh dev dest fstab)) := by
  have hws := line_spelled sh.world hdev hmount
  cases dest with
  | fs type mountPoint => exact entered_readable hend hws hoption hread
  | swap => exact entered_readable hend hws hoption hread
  | lvm => exact hread
  | raid => exact hread

structure Call.Safe (W : Shell.World) (c : Call) : Prop where
  device : ∀ dev ∈ c.device, dev.head? = some '/' ∧ ∀ x ∈ dev, safeChar x = true
  mount : ∀ dest ∈ c.dest, dest.MountSpelled W

theorem Call.Safe.lineSpelled {W : Shell.World} {c : Call} (h : c.Safe W) : c.LineSpelled W := by
  cases c with
  | createPartition dev num partid =>
    obtain ⟨hstart, hsafe⟩ := h.device _ rfl
    exact ⟨fun _ => spelled_of_safe W hstart hsafe, h.mount _ rfl⟩
  | createRaid present dest => exact h.mount
  | createLv vg name dest => exact h.mount _ rfl

theorem call_readable {c : Call} (hend : Terminated fstab) (hc : c.Safe sh.world)
    (hcall : call sh fstab c = .ok fstab') (hread : Readable (fileLines fstab)) : Readable (fileLines fstab') := by
  have hset : ∀ dev ∈ c.device, ∀ dest ∈ c.dest, Readable (fileLines (setDevContents sh dev dest fstab)) := by
    intro dev hdev dest hdest
    obtain ⟨hstart, hsafe⟩ := hc.device dev hdev
    exact setDevContents_readable hend (spelled_of_safe _ hstart hsafe) (ne_option_of_slash hstart)
      (hc.mount dest hdest) hread
  cases c with
  | createPartition dev num partid =>
    cases hcall
    exact hset _ rfl _ rfl
  | createRaid present dest =>
    simp only [call, createRaid] at hcall
    cases hdev : nextRaid present with
    | none =>
      rw [hdev] at hcall
      cases hcall
    | some dev =>
      rw [hdev] at hcall
      cases dest with
      | none =>
        cases hcall
        exact hread
      | some dest =>
        cases hcall
        exact hset dev hdev dest rfl
  | createLv vg name dest =>
    cases hcall
    exact hset _ rfl _ rfl

theorem callAll_readable {cs : List Call} (hend : Terminated fstab) (hcs : ∀ c ∈ cs, c.Safe sh.world)
    (hcall : callAll sh fstab cs = .ok fstab') (hread : Readable (fileLines fstab)) :
    Readable (fileLines fstab') := by
  induction cs generalizing fstab with
  | nil =>
    cases hcall
    exact hread
  | cons c cs ih =>
    rw [callAll] at hcall
    obtain ⟨hc, hcs⟩ := List.forall_mem_cons.mp hcs
    cases hfirst : call sh fstab c with
    | error e =>
      rw [hfirst] at hcall
      cases hcall
    | ok next =>
      rw [hfirst] at hcall
      have hnext := (call_given hend hc.lineSpelled hfirst).1
      exact ih hnext hcs hcall (call_readable hend hc hfirst hread)

theorem callAll_terminated {cs : List Call} (hend : Terminated fstab) (hcs : ∀ c ∈ cs, c.Safe sh.world)
    (hcall : callAll sh fstab cs = .ok fstab') : Terminated fstab' := by
  induction cs generalizing fstab with
  | nil =>
    cases hcall
    exact hend
  | cons c cs ih =>
    rw [callAll] at hcall
    obtain ⟨hc, hcs⟩ := List.forall_mem_cons.mp hcs
    cases hfirst : call sh fstab c with
    | error e =>
      rw [hfirst] at hcall
      cases hcall
    | ok next =>
      rw [hfirst] at hcall
      exact ih (call_given hend hc.lineSpelled hfirst).1 hcs hcall

theorem safe_partition (d : Disk) (k : ℕ) :
    (partitionDevice d.path k).head? = some '/' ∧ ∀ x ∈ partitionDevice d.path k, safeChar x = true := by
  have hpath : partitionDevice d.path k = devDir ++ (d.bus.text ++ d.letters ++ decimal k) :=
    partitionDevice_disk d k
  have hfixed : ∀ x ∈ devDir ++ (Bus.sd.text ++ Bus.hd.text), safeChar x = true := by decide
  rw [hpath]
  refine ⟨rfl, fun x hx => ?_⟩
  simp only [List.mem_append] at hx
  obtain hx | (hx | hx) | hx := hx
  · exact hfixed x (List.mem_append_left _ hx)
  · cases hbus : d.bus with
    | sd =>
      rw [hbus] at hx
      exact hfixed x (List.mem_append_right _ (List.mem_append_left _ hx))
    | hd =>
      rw [hbus] at hx
      exact hfixed x (List.mem_append_right _ (List.mem_append_right _ hx))
  · have halpha : x.isAlpha = true := Bool.or_eq_true_iff.mpr (.inr (d.lower x hx))
    simp [safeChar, Char.isAlphanum, halpha]
  · have hdigit := isDigit_of_mem_decimal hx
    simp [safeChar, Char.isAlphanum, hdigit]

theorem efiMount_spelled (W : Shell.World) (i : ℕ) : Spelled W (efiMount i) := by
  have hfixed : ∀ x ∈ efiPoint, safeChar x = true := by decide
  apply spelled_of_safe W rfl
  intro x hx
  obtain hx | hx := List.mem_append.mp hx
  · exact hfixed x hx
  · split_ifs at hx
    · exact absurd hx List.not_mem_nil
    · have hdigit := isDigit_of_mem_decimal hx
      simp [safeChar, Char.isAlphanum, hdigit]

theorem bootPoint_spelled (W : Shell.World) : Spelled W bootPoint := spelled_of_safe W rfl (by decide)

theorem rootPoint_spelled (W : Shell.World) : Spelled W rootPoint := spelled_of_safe W rfl (by decide)

theorem bootDest_spelled (W : Shell.World) (efiSystem raid : Bool) (i : ℕ) :
    (bootDest efiSystem raid i).MountSpelled W := by
  unfold bootDest
  split_ifs
  · exact efiMount_spelled W i
  · exact trivial
  · exact bootPoint_spelled W

theorem restDest_spelled (W : Shell.World) (raid : Bool) : (restDest raid).MountSpelled W := by
  cases raid <;> exact trivial

theorem partition_safe {W : Shell.World} (d : Disk) (k : ℕ) {dest : Dest} (h : dest.MountSpelled W) :
    (Call.createPartition d.path k dest).Safe W where
  device dev hdev := by
    obtain rfl := Option.some.inj hdev
    exact safe_partition d k
  mount dest' hdest := by
    obtain rfl := Option.some.inj hdest
    exact h

theorem raid_safe {W : Shell.World} (present : Text → Bool) {dest : Option Dest}
    (h : ∀ d ∈ dest, d.MountSpelled W) : (Call.createRaid present dest).Safe W where
  device dev hdev := by
    obtain ⟨i, -, rfl⟩ := Option.map_eq_some_iff.mp hdev
    exact ⟨rfl, safe_raidDevice i⟩
  mount := h

theorem lv_safe {W : Shell.World} (vg name : LvmName) {dest : Dest} (h : dest.MountSpelled W) :
    (Call.createLv vg name dest).Safe W where
  device dev hdev := by
    obtain rfl := Option.some.inj hdev
    exact ⟨rfl, safe_lvDevice vg name⟩
  mount dest' hdest := by
    obtain rfl := Option.some.inj hdest
    exact h

theorem partitionCalls_safe (W : Shell.World) (efiSystem raid : Bool) (a : AutoWorld) {devs : List Text}
    (hdevs : ∀ p ∈ devs, ∃ d : Disk, p = d.path) : ∀ c ∈ partitionCalls efiSystem raid a devs, c.Safe W := by
  intro c hc
  obtain ⟨⟨p, i⟩, hp, hc⟩ := List.mem_flatMap.mp hc
  obtain ⟨d, rfl⟩ := hdevs p (List.fst_mem_of_mem_zipIdx hp)
  obtain rfl | hc := List.mem_cons.mp hc
  · exact partition_safe d _ (bootDest_spelled W efiSystem raid i)
  · obtain rfl := List.mem_singleton.mp hc
    exact partition_safe d _ (restDest_spelled W raid)

theorem raidCalls_safe (W : Shell.World) (efiSystem raid : Bool) (a : AutoWorld) :
    ∀ c ∈ raidCalls efiSystem raid a, c.Safe W := by
  intro c hc
  obtain hc | hc := List.mem_append.mp hc
  · split_ifs at hc
    · obtain rfl := List.mem_singleton.mp hc
      apply raid_safe
      rintro dest ⟨⟩
      exact bootPoint_spelled W
    · exact absurd hc List.not_mem_nil
  · split_ifs at hc
    · obtain rfl := List.mem_singleton.mp hc
      apply raid_safe
      rintro dest ⟨⟩
      exact trivial
    · exact absurd hc List.not_mem_nil

theorem toCall_safe (W : Shell.World) (c : LvCall) : c.toCall.Safe W := by
  unfold LvCall.toCall
  split_ifs
  · exact lv_safe vg01 rootName (rootPoint_spelled W)
  · exact lv_safe vg01 swapVolume trivial

theorem given_partitionCalls_efi (raid : Bool) (a : AutoWorld) (devs : List (Text × ℕ)) :
    (devs.flatMap (fun (d, i) => [Call.createPartition d (a.numbers d).1 (bootDest true raid i),
      .createPartition d (a.numbers d).2 (restDest raid)])).filterMap Call.given =
      devs.map (fun (d, i) => (efiMount i, vfatInfo (partitionDevice d (a.numbers d).1))) := by
  induction devs with
  | nil => rfl
  | cons d devs ih =>
    rw [List.flatMap_cons, List.filterMap_append, ih, List.map_cons]
    cases raid <;> rfl

theorem given_partitionCalls_raid (a : AutoWorld) (devs : List (Text × ℕ)) :
    (devs.flatMap (fun (d, i) => [Call.createPartition d (a.numbers d).1 (bootDest false true i),
      .createPartition d (a.numbers d).2 (restDest true)])).filterMap Call.given = [] := by
  induction devs with
  | nil => rfl
  | cons d devs ih =>
    rw [List.flatMap_cons, List.filterMap_append, ih]
    rfl

theorem setupDevs_single (h : isRaid basedevs = false) (hne : setupDevs basedevs ≠ []) :
    ∃ d, setupDevs basedevs = [d] := by
  have hlen : ¬ 2 ≤ (sorted basedevs).length := of_decide_eq_false h
  have htake : setupDevs basedevs = sorted basedevs := by
    rw [setupDevs, if_neg hlen, List.take_of_length_le (by omega)]
  rw [htake] at hne ⊢
  have hpos := List.length_pos_iff.mpr hne
  exact List.length_eq_one_iff.mp (by omega)

theorem given_lvmRaid (present : Text → Bool) : (Call.createRaid present (some .lvm)).given = none := by
  unfold Call.given
  cases (Call.createRaid present (some .lvm)).device <;> rfl

theorem given_first (hne : setupDevs basedevs ≠ [])
    (hcall : callAll sh fstab (partitionCalls efiSystem (isRaid basedevs) a (setupDevs basedevs) ++
      raidCalls efiSystem (isRaid basedevs) a) = .ok fstab') :
    (partitionCalls efiSystem (isRaid basedevs) a (setupDevs basedevs) ++
      raidCalls efiSystem (isRaid basedevs) a).filterMap Call.given = bootEntries efiSystem a basedevs := by
  rw [List.filterMap_append, partitionCalls, bootEntries]
  cases efiSystem with
  | true =>
    rw [given_partitionCalls_efi, if_pos rfl]
    cases isRaid basedevs with
    | true =>
      have hcalls : raidCalls true true a = [.createRaid a.lvmRaid (some .lvm)] := rfl
      rw [hcalls, List.filterMap_cons_none (given_lvmRaid _)]
      exact List.append_nil _
    | false => exact List.append_nil _
  | false =>
    rw [if_neg Bool.false_ne_true, bootDev]
    cases hraid : isRaid basedevs with
    | true =>
      rw [hraid] at hcall
      have hmem : Call.createRaid a.bootRaid (some (.fs .ext4 bootPoint)) ∈
          partitionCalls false true a (setupDevs basedevs) ++ raidCalls false true a :=
        List.mem_append_right _ (List.mem_cons_self ..)
      obtain ⟨dev, hdev⟩ := callAll_device hcall _ hmem
      have hnext : nextRaid a.bootRaid = some dev := hdev
      have hgiven : (Call.createRaid a.bootRaid (some (.fs .ext4 bootPoint))).given =
          some (bootPoint, ext4Info dev) := by
        rw [Call.given, hdev]
        rfl
      have hcalls : raidCalls false true a =
          [.createRaid a.bootRaid (some (.fs .ext4 bootPoint)), .createRaid a.lvmRaid (some .lvm)] := rfl
      rw [given_partitionCalls_raid, if_pos rfl, hnext, hcalls, List.filterMap_cons_some hgiven,
        List.filterMap_cons_none (given_lvmRaid _)]
      rfl
    | false =>
      obtain ⟨d, hd⟩ := setupDevs_single hraid hne
      rw [hd]
      rfl

theorem lists_of_given {lines : List Text} (hread : Readable lines) {k : Text} {info : FsInfo}
    (h : (k, info) ∈ lines.filterMap given) : Lists lines k := by
  obtain ⟨l, hl, hgiven⟩ := List.mem_filterMap.mp h
  obtain ⟨e, he⟩ := hread l hl
  obtain rfl : e = some (k, info) := (fstabEntry_given he).trans hgiven
  exact ⟨l, hl, info, he⟩

theorem efi_entry_mem (a : AutoWorld) (hne : setupDevs basedevs ≠ []) :
    ∃ info, (efiPoint, info) ∈ bootEntries true a basedevs := by
  obtain ⟨d, ds, hds⟩ := List.exists_cons_of_ne_nil hne
  refine ⟨vfatInfo (partitionDevice d (a.numbers d).1), ?_⟩
  rw [bootEntries, if_pos rfl, hds]
  exact List.mem_cons_self ..

theorem autoInstall_created (h : autoInstall sh efiSystem fullDisk a basedevs fstab = .ok (some fstab')) :
    setupDevs basedevs ≠ [] ∧ ∃ middle calls,
      callAll sh fstab (partitionCalls efiSystem (isRaid basedevs) a (setupDevs basedevs) ++
        raidCalls efiSystem (isRaid basedevs) a) = .ok middle ∧
      createVolumes fullDisk a.free a.pvdisplay = .created calls ∧
      callAll sh middle (calls.map LvCall.toCall) = .ok fstab' := by
  unfold autoInstall at h
  dsimp only at h
  cases hfirst : callAll sh fstab (partitionCalls efiSystem (isRaid basedevs) a (setupDevs basedevs) ++
      raidCalls efiSystem (isRaid basedevs) a) with
  | error e =>
    rw [hfirst] at h
    cases h
  | ok middle =>
    rw [hfirst] at h
    dsimp only at h
    split_ifs at h with hne
    refine ⟨hne, middle, ?_⟩
    cases hvolumes : createVolumes fullDisk a.free a.pvdisplay with
    | returned =>
      rw [hvolumes] at h
      cases h
    | raised e =>
      rw [hvolumes] at h
      cases h
    | created calls =>
      rw [hvolumes] at h
      dsimp only at h
      refine ⟨calls, rfl, rfl, ?_⟩
      cases hsecond : callAll sh middle (calls.map LvCall.toCall) with
      | error e =>
        rw [hsecond] at h
        cases h
      | ok last =>
        rw [hsecond] at h
        cases h
        rfl

theorem installed_usable (hread : Readable (fileLines fstab')) (hne : setupDevs basedevs ≠ [])
    {es : List (Text × FsInfo)} (hgiven : (fileLines fstab').filterMap given =
      es ++ (bootEntries efiSystem a basedevs ++ [rootEntry])) :
    Usable efiSystem (some (fileLines fstab')) := by
  refine ⟨_, rfl, hread, ?_, fun hefi => ?_⟩
  · have hroot : (rootPoint, rootEntry.2) ∈ (fileLines fstab').filterMap given := by
      rw [hgiven]
      exact List.mem_append_right _ (List.mem_append_right _ (List.mem_singleton_self _))
    exact lists_of_given hread hroot
  · subst hefi
    obtain ⟨info, hinfo⟩ := efi_entry_mem a hne
    apply lists_of_given hread
    rw [hgiven]
    exact List.mem_append_right _ (List.mem_append_left _ hinfo)

theorem installed_table {ds : List Disk} (hend : Terminated fstab) (hread : Readable (fileLines fstab))
    (hrun : autoInstall sh efiSystem fullDisk a (ds.map Disk.path) fstab = .ok (some fstab')) :
    setupDevs (ds.map Disk.path) ≠ [] ∧ Readable (fileLines fstab') ∧
      (fileLines fstab').filterMap given = (fileLines fstab).filterMap given ++
        (bootEntries efiSystem a (ds.map Disk.path) ++ [rootEntry]) := by
  obtain ⟨hne, middle, calls, hfirst, hvolumes, hsecond⟩ := autoInstall_created hrun
  have hdevs : ∀ p ∈ setupDevs (ds.map Disk.path), ∃ d : Disk, p = d.path := by
    intro p hp
    obtain ⟨d, -, rfl⟩ := List.mem_map.mp (mem_setupDevs.mp hp)
    exact ⟨d, rfl⟩
  have hsafe := List.forall_mem_append.mpr
    ⟨partitionCalls_safe sh.world efiSystem (isRaid (ds.map Disk.path)) a hdevs,
      raidCalls_safe sh.world efiSystem (isRaid (ds.map Disk.path)) a⟩
  have hsafe' : ∀ c ∈ calls.map LvCall.toCall, c.Safe sh.world := by
    intro c hc
    obtain ⟨c, -, rfl⟩ := List.mem_map.mp hc
    exact toCall_safe sh.world c
  have hend' := callAll_terminated hend hsafe hfirst
  refine ⟨hne, callAll_readable hend' hsafe' hsecond (callAll_readable hend hsafe hfirst hread), ?_⟩
  rw [callAll_given hend' (fun c hc => (hsafe' c hc).lineSpelled) hsecond,
    callAll_given hend (fun c hc => (hsafe c hc).lineSpelled) hfirst, given_first hne hfirst,
    given_created hvolumes, List.append_assoc]

theorem installed_reread {ds : List Disk} (I : Installer) (hend : Terminated fstab)
    (hread : Readable (fileLines fstab))
    (hrun : autoInstall sh efiSystem fullDisk a (ds.map Disk.path) fstab = .ok (some fstab')) :
    ∃ m, rereadTmpFstab efiSystem I fstab' = ({ I with mounts := m }, .ok ()) := by
  obtain ⟨hne, hread', hgiven⟩ := installed_table hend hread hrun
  obtain ⟨m, hm⟩ := (rereadFstab_ok_iff efiSystem _).mpr (installed_usable hread' hne hgiven)
  exact ⟨m, by rw [rereadTmpFstab, hm]⟩

theorem reread_mounts {I : Installer} {m : Mounts}
    (h : rereadTmpFstab efiSystem I fstab = ({ I with mounts := m }, .ok ())) :
    readLines Dict.empty (fileLines fstab) = .ok m := by
  unfold rereadTmpFstab at h
  cases hread : rereadFstab efiSystem (some (fileLines fstab)) with
  | error e =>
    rw [hread] at h
    have hsnd := congrArg Prod.snd h
    cases hsnd
  | ok m' =>
    rw [hread] at h
    obtain rfl : m' = m := congrArg (fun r => r.1.mounts) h
    exact readLines_of_rereadFstab hread

theorem auto_install_mounts (sh : Sh) (efiSystem : Bool) (I : Installer) (fullDisk : Bool) (a : AutoWorld)
    (ds : List Disk) (fstab fstab' : Text) (hend : Terminated fstab) (hread : Readable (fileLines fstab))
    (hrun : autoInstall sh efiSystem fullDisk a (ds.map Disk.path) fstab = .ok (some fstab')) :
    ∃ m, rereadTmpFstab efiSystem I fstab' = ({ I with mounts := m }, .ok ()) ∧
      ∀ k, m.get? k = lastFor k ((fileLines fstab).filterMap given ++
        (bootEntries efiSystem a (ds.map Disk.path) ++ [rootEntry])) := by
  obtain ⟨-, -, hgiven⟩ := installed_table hend hread hrun
  obtain ⟨m, hm⟩ := installed_reread I hend hread hrun
  refine ⟨m, hm, fun k => ?_⟩
  rw [readLines_get? (reread_mounts hm) k, hgiven]
  exact Option.or_none

def twoDisks : AutoWorld where
  numbers _ := (1, 2)
  bootRaid _ := false
  lvmRaid dev := dev = raidDevice 0
  free := ⟨0, ["       total".toList, "Mem: 2000000".toList, []]⟩
  pvdisplay := "  /dev/md1 vg01 lvm2 a-- 100000.00 100000.00\n".toList

theorem rootLine_terminated : Terminated rootLine := .inr ⟨"/dev/sda2 / ext3 defaults 0 1".toList, by decide⟩

theorem rootLine_readable : Readable (fileLines rootLine) := by
  intro l hl
  have hlines : fileLines rootLine = ["/dev/sda2 / ext3 defaults 0 1".toList] := by decide
  rw [hlines] at hl
  obtain rfl := List.mem_singleton.mp hl
  exact ⟨some (rootPoint, ⟨"/dev/sda2".toList, "ext3".toList, some "defaults".toList⟩), by decide⟩

def efiLines : Text := "/dev/sda1 /boot/efi vfat defaults 0 2\n/dev/sdb1 /boot/efi2 vfat defaults 0 2\n".toList

def rootLines : Text :=
  "/dev/mapper/vg01-root / ext4 defaults 0 1\n/dev/mapper/vg01-swap swap swap sw 0 0\n".toList

theorem efi_installed : ∃ m, rereadTmpFstab true initial (rootLine ++ efiLines ++ rootLines) =
      ({ initial with mounts := m }, .ok ()) ∧
    m.get? efiPoint = some (vfatInfo "/dev/sda1".toList) ∧
    m.get? rootPoint = some (ext4Info "/dev/mapper/vg01-root".toList) := by
  obtain ⟨m, hm, hget⟩ := auto_install_mounts bareSh true initial false twoDisks [diskA, diskB] rootLine
    (rootLine ++ efiLines ++ rootLines) rootLine_terminated rootLine_readable (by decide +kernel)
  refine ⟨m, hm, ?_, ?_⟩
  · rw [hget]
    decide +kernel
  · rw [hget]
    decide +kernel

theorem lastFor_append (k : Text) (es es' : List (Text × FsInfo)) :
    lastFor k (es ++ es') = (lastFor k es').or (lastFor k es) := by
  induction es with
  | nil => exact Option.or_none.symm
  | cons e es ih => rw [List.cons_append, lastFor_cons, ih, lastFor_cons, Option.or_assoc]

theorem bootDev_some (hne : setupDevs basedevs ≠ [])
    (hcall : callAll sh fstab (partitionCalls false (isRaid basedevs) a (setupDevs basedevs) ++
      raidCalls false (isRaid basedevs) a) = .ok fstab') : ∃ dev, bootDev a basedevs = some dev := by
  unfold bootDev
  cases hraid : isRaid basedevs with
  | true =>
    rw [hraid] at hcall
    exact callAll_device hcall (.createRaid a.bootRaid (some (.fs .ext4 bootPoint)))
      (List.mem_append_right _ (List.mem_cons_self ..))
  | false =>
    obtain ⟨d, hd⟩ := setupDevs_single hraid hne
    rw [hd]
    exact ⟨_, rfl⟩

theorem boot_mounted {ds : List Disk} {I : Installer} {m : Mounts} (hend : Terminated fstab)
    (hread : Readable (fileLines fstab))
    (hrun : autoInstall sh false fullDisk a (ds.map Disk.path) fstab = .ok (some fstab'))
    (hm : rereadTmpFstab false I fstab' = ({ I with mounts := m }, .ok ())) :
    ∃ dev, bootDev a (ds.map Disk.path) = some dev ∧ bootDevice m = .ok dev := by
  obtain ⟨hne, -, hgiven⟩ := installed_table hend hread hrun
  obtain ⟨-, middle, calls, hfirst, -, -⟩ := autoInstall_created hrun
  obtain ⟨dev, hdev⟩ := bootDev_some hne hfirst
  have hboot : bootEntries false a (ds.map Disk.path) = [(bootPoint, ext4Info dev)] := by
    rw [bootEntries, if_neg Bool.false_ne_true, hdev]
    rfl
  have hlast : lastFor bootPoint [(bootPoint, ext4Info dev), rootEntry] = some (ext4Info dev) := rfl
  have hget : m.get? bootPoint = some (ext4Info dev) := by
    rw [readLines_get? (reread_mounts hm), hgiven, hboot, lastFor_append, List.singleton_append, hlast]
    rfl
  refine ⟨dev, hdev, ?_⟩
  rw [bootDevice, hget]
  rfl

/-- The array that is to hold /boot, as mdadm made it of the first partitions. -/
def BootArray (t : Topology) (a : AutoWorld) (ds : List Disk) : Prop :=
  ∀ n, nextRaid a.bootRaid = some (Dev.md n).path → ∃ r, findArray t.arrays n = some r ∧ r.state = none ∧
    ∀ e, e ∈ r.members.map Member.dev ↔ ∃ d ∈ ds, e = .part d (a.numbers d.path).1

theorem isRaid_map {ds : List Disk} : isRaid (ds.map Disk.path) = true ↔ 2 ≤ ds.length := by
  have hlen : (sorted (ds.map Disk.path)).length = ds.length := by
    rw [(sorted_perm _).length_eq, List.length_map]
  rw [isRaid, hlen, decide_eq_true_iff]

theorem part_found {w : Probe} {t : Topology} (hp : t.PrintedIn w.mdstat) (depth : ℕ) (d : Disk) (k : ℕ) :
    Found w t (depth + 1) (.part d k) := by
  refine found_step hp depth _ ?_ (fun e he => absurd he List.not_mem_nil)
  intro n r hreach
  obtain h | ⟨c, hc, -⟩ := Relation.ReflTransGen.cases_head hreach
  · cases h
  · exact absurd hc List.not_mem_nil

theorem visible_part {t : Topology} {d disk : Disk} {k : ℕ} : t.Visible (.part d k) disk ↔ d = disk := by
  rw [visible_leaf rfl, Dev.onDisk, Option.some_inj]

theorem boot_found {w : Probe} {t : Topology} {ds : List Disk} {dev : Text} (hp : t.PrintedIn w.mdstat)
    (harray : BootArray t a ds) (hdev : bootDev a (ds.map Disk.path) = some dev) (depth : ℕ) :
    ∃ l, findBaseDevices w (depth + 2) dev = .ok l ∧ ∀ x, x ∈ l ↔ ∃ d ∈ ds, x = shortPath d := by
  unfold bootDev at hdev
  split_ifs at hdev with hraid
  · obtain ⟨n, -, rfl⟩ := nextRaid_path hdev
    obtain ⟨r, hr, hstate, hmembers⟩ := harray n hdev
    have hparts : ∀ e ∈ r.members.map Member.dev, Found w t (depth + 1) e := by
      intro e he
      obtain ⟨d, -, rfl⟩ := (hmembers e).mp he
      exact part_found hp depth d _
    obtain ⟨l, hl, hmem⟩ := found_collect hparts
    refine ⟨l, ?_, fun x => ?_⟩
    · rw [findBaseDevices_md hp, hr]
      dsimp only
      rw [if_pos hstate, ← hl, List.map_map]
      rfl
    · rw [hmem]
      constructor
      · rintro ⟨disk, ⟨e, he, hv⟩, rfl⟩
        obtain ⟨d, hd, rfl⟩ := (hmembers e).mp he
        exact ⟨d, hd, congrArg shortPath (visible_part.mp hv).symm⟩
      · rintro ⟨d, hd, rfl⟩
        exact ⟨d, ⟨_, (hmembers _).mpr ⟨d, hd, rfl⟩, visible_part.mpr rfl⟩, rfl⟩
  · have hlen : ¬ 2 ≤ ds.length := fun h => hraid (isRaid_map.mpr h)
    cases ds with
    | nil => cases hdev
    | cons d ds =>
      obtain rfl : ds = [] := by
        apply List.eq_nil_of_length_eq_zero
        rw [List.length_cons] at hlen
        omega
      have hpath : partitionDevice d.path (a.numbers d.path).1 = devDir ++ (d.name ++ decimal (a.numbers d.path).1) :=
        partitionDevice_disk d _
      obtain rfl : partitionDevice d.path (a.numbers d.path).1 = dev := Option.some.inj hdev
      refine ⟨[shortPath d], ?_, fun x => ?_⟩
      · rw [hpath, findBaseDevices_disk, shortPath_of_append]
        rfl
      · simp

theorem sortUniq_congr {xs ys : List Text} : sortUniq xs = sortUniq ys ↔ ∀ x, x ∈ xs ↔ x ∈ ys := by
  constructor
  · intro h x
    rw [← mem_sortUniq, h, mem_sortUniq]
  · intro h
    apply List.Pairwise.eq_of_mem_iff (sortUniq_pairwise xs) (sortUniq_pairwise ys)
    intro x
    rw [mem_sortUniq, h, mem_sortUniq]

theorem short_of_same {ds : List Disk} : (∀ x, (∃ d ∈ ds, x = shortPath d) ↔ x ∈ ds.map Disk.path) ↔
    ∀ d ∈ ds, d.letters.length = 1 := by
  constructor
  · intro h d hd
    obtain ⟨e, -, hpath⟩ := (h _).mpr (List.mem_map_of_mem hd)
    exact length_of_path_eq_shortPath hpath
  · intro h x
    rw [List.mem_map]
    constructor
    · rintro ⟨d, hd, rfl⟩
      exact ⟨d, hd, (shortPath_eq_path (h d hd)).symm⟩
    · rintro ⟨d, hd, rfl⟩
      exact ⟨d, hd, (shortPath_eq_path (h d hd)).symm⟩

theorem auto_install_grub (sh : Sh) (I : Installer) (fullDisk : Bool) (a : AutoWorld) (ds : List Disk)
    (fstab fstab' : Text) (m : Mounts) (w : Probe) (t : Topology) (hend : Terminated fstab)
    (hread : Readable (fileLines fstab))
    (hrun : autoInstall sh false fullDisk a (ds.map Disk.path) fstab = .ok (some fstab'))
    (hm : rereadTmpFstab false I fstab' = ({ I with mounts := m }, .ok ()))
    (hp : t.PrintedIn w.mdstat) (harray : BootArray t a ds) (depth : ℕ) :
    findBootDevices w (depth + 2) m = .ok (sortUniq (ds.map Disk.path)) ↔ ∀ d ∈ ds, d.letters.length = 1 := by
  obtain ⟨dev, hdev, hboot⟩ := boot_mounted hend hread hrun hm
  obtain ⟨l, hl, hmem⟩ := boot_found hp harray hdev depth
  rw [findBootDevices, hboot]
  dsimp only
  rw [hl]
  dsimp only
  rw [Except.ok.injEq, sortUniq_congr, ← short_of_same]
  apply forall_congr'
  intro x
  rw [hmem]

theorem mirror_bootArray : BootArray mirrored twoDisks [diskA, diskB] := by
  intro n hn
  have hnext : nextRaid twoDisks.bootRaid = some (Dev.md 0).path := by decide
  obtain rfl : n = 0 := by
    have hpath : mdName n = mdName 0 := List.append_cancel_left (Option.some.inj (hn.symm.trans hnext))
    exact mdName_injective hpath
  refine ⟨mirror, rfl, rfl, fun e => ?_⟩
  simp [mirror, twoDisks, or_comm]

theorem grub_on_both : ∃ m, findBootDevices mirroredProbe 2 m = .ok (sortUniq [diskA.path, diskB.path]) := by
  have hrun : autoInstall bareSh false true twoDisks ([diskA, diskB].map Disk.path) rootLine =
      .ok (some (rootLine ++ "/dev/md0 /boot ext4 defaults 0 2\n".toList ++ rootLines)) := by
    decide +kernel
  obtain ⟨m, hm⟩ := installed_reread initial rootLine_terminated rootLine_readable hrun
  refine ⟨m, (auto_install_grub bareSh initial true twoDisks [diskA, diskB] rootLine _ m mirroredProbe mirrored
    rootLine_terminated rootLine_readable hrun hm mirrored_printedIn mirror_bootArray 0).mpr ?_⟩
  intro d hd
  obtain rfl | rfl : d = diskA ∨ d = diskB := by simpa using hd
  · rfl
  · rfl

end CgxLayer.Installer

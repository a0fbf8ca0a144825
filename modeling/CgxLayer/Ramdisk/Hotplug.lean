import CgxLayer.Locking
import CgxLayer.Runs
import CgxLayer.Text

namespace CgxLayer.Ramdisk

open Text Locking Runs

inductive Command where
  | mdlock
  | mdunlock
  | helper (path : Text)
  | exec (argv : List Text)

-- Both scripts call `mdadm`, with and without its directory.
def Command.kind : Command → Kind
  | .mdlock => .acquire
  | .mdunlock => .release
  | .helper _ => .free
  | .exec argv =>
    if argv.head? = some "/sbin/mdadm".toList ∨ argv.head? = some "mdadm".toList then .critical else .free

structure Event where
  arg : Text
  subsystem : Text
  action : Text
  devname : Text
  devpath : Text
  firmware : Text
  major : Text
  minor : Text

structure Findings where
  lib64 : Bool
  sysMounted : Bool
  idFsType : Text

def Findings.libdir (f : Findings) : Text := if f.lib64 then "lib64".toList else "lib".toList

def locked (argv : List Text) : List Command := [.mdlock, .exec argv, .mdunlock]

def firmwareCommands (e : Event) (libdir : Text) : List Command :=
  [.exec ["echo".toList, "1".toList],
    .exec ["/".toList ++ libdir ++ "/udev/firmware".toList, "--firmware=".toList ++ e.firmware,
      "--devpath=".toList ++ e.devpath],
    .exec ["echo".toList, "0".toList]]

def deviceNode (e : Event) (devnode : Text) : List Command :=
  if e.action = "add".toList then
    [.exec ["/bin/mknod".toList, "-m".toList, "0600".toList, devnode, "b".toList, e.major, e.minor]]
  else if e.action = "remove".toList then [.exec ["/bin/rm".toList, devnode]]
  else []

def startMd (e : Event) (devnode : Text) : List Command :=
  if e.action = "add".toList ∧ startsWith "/dev/md".toList devnode then
    locked ["/sbin/mdadm".toList, "--run".toList, devnode]
  else []

def assembleMd (e : Event) (devnode idFsType : Text) : List Command :=
  if e.action = "add".toList ∨ e.action = "change".toList then
    .exec ["/sbin/blkid".toList, "-o".toList, "udev".toList, "-p".toList, devnode] ::
      if idFsType = "linux_raid_member".toList then
        locked ["/sbin/mdadm".toList, "--incremental".toList, devnode]
      else []
  else []

def hotplug (e : Event) (f : Findings) : List Command :=
  let devnode := "/dev/".toList ++ e.devname
  (if f.sysMounted then [] else
    [.exec ["/bin/mount".toList, "-t".toList, "sysfs".toList, "none".toList, "/sys".toList]]) ++
  if e.arg = "firmware".toList then firmwareCommands e f.libdir
  else if e.subsystem = "block".toList then
    deviceNode e devnode ++ startMd e devnode ++ assembleMd e devnode f.idFsType
  else []

structure InitInput where
  diskstats : List (Text × Text × Text)
  modules : List Text
  root : Text
  ro : Text
  tries : ℕ

def findRoot (ro root : Text) : List Command :=
  [.exec ["/sbin/vgscan".toList],
    .exec ["/sbin/vgchange".toList, "--available".toList, "y".toList, "--noudevsync".toList],
    .exec ["mount".toList, "-o".toList, ro, root, "/new-root".toList]]

-- The script from the activation of hotplug on; between the root's mount and the end it runs no
-- `mdadm` and leaves the lock alone.
def initTemplate (i : InitInput) : List Command :=
  [.helper "/sbin/hotplug.final".toList] ++
  i.diskstats.map (fun (maj, min, name) =>
    .exec ["mknod".toList, "/dev/".toList ++ name, "b".toList, maj, min]) ++
  [.exec ["mdadm".toList, "--assemble".toList, "--scan".toList]] ++
  i.modules.map (fun m => .exec ["modprobe".toList, m]) ++
  if i.root.isEmpty then [.exec ["/bin/sh".toList]]
  else (List.replicate i.tries (findRoot i.ro i.root)).flatten ++
    [.exec ["sleep".toList, "2".toList], .helper [], .exec ["umount".toList, "/proc".toList],
      .exec ["umount".toList, "/sys".toList], .exec ["switch_root".toList]]

structure Boot where
  helper : Text
  init : Proc Command
  hotplugs : Pool Command

def Boot.start (i : InitInput) : Boot := ⟨[], .start (initTemplate i), ⟨false, []⟩⟩

inductive Move where
  | init
  | hotplug (n : ℕ)
  | event (e : Event) (f : Findings)

def helperAfter (helper : Text) (p : Proc Command) : Text :=
  match p.running, p.todo with
  | none, .helper path :: _ => path
  | _, _ => helper

def Boot.step (s : Boot) : Move → Boot
  | .init =>
    let r := s.init.step Command.kind s.hotplugs.lock
    ⟨helperAfter s.helper s.init, r.2, { s.hotplugs with lock := r.1 }⟩
  | .hotplug n => { s with hotplugs := s.hotplugs.step Command.kind n }
  | .event e f =>
    if s.helper = "/sbin/hotplug.final".toList then
      { s with hotplugs := s.hotplugs.spawn (hotplug e f) }
    else s

def mdadmRuns (p : Proc Command) : Bool := p.inCritical Command.kind

def OneMdadm (s : Boot) : Prop := (s.init :: s.hotplugs.procs).countP mdadmRuns ≤ 1

instance (s : Boot) : Decidable (OneMdadm s) := inferInstanceAs (Decidable (_ ≤ 1))

def Apart (s : Boot) : Move → Prop
  | .init => s.init.starts Command.kind = true → ∀ p ∈ s.hotplugs.procs, mdadmRuns p = false
  | .hotplug n => ∀ p, s.hotplugs.procs[n]? = some p → p.starts Command.kind = true → mdadmRuns s.init = false
  | .event _ _ => True

theorem kind_exec {name : Text} (h : name ≠ "/sbin/mdadm".toList) (h' : name ≠ "mdadm".toList)
    (args : List Text) : (Command.exec (name :: args)).kind = .free :=
  if_neg (fun ho => ho.elim (fun hn => h (Option.some.inj hn)) (fun hn => h' (Option.some.inj hn)))

theorem exec_complete {name : Text} (h : name ≠ "/sbin/mdadm".toList) (h' : name ≠ "mdadm".toList)
    (args : List Text) : Complete Command.kind [.exec (name :: args)] := by
  apply complete_of_free
  intro c hc
  rw [List.mem_singleton.mp hc, kind_exec h h']

theorem locked_complete (argv : List Text) : Complete Command.kind (locked argv) := by
  have hbody : ∀ c ∈ [Command.exec argv], c.kind = .critical ∨ c.kind = .free := by
    intro c hc
    rw [List.mem_singleton.mp hc, Command.kind]
    split_ifs
    · exact .inl rfl
    · exact .inr rfl
  exact @complete_section _ Command.kind .mdlock .mdunlock _ rfl rfl hbody

theorem startMd_complete (e : Event) (devnode : Text) : Complete Command.kind (startMd e devnode) := by
  unfold startMd
  split_ifs
  · exact locked_complete _
  · exact complete_nil

theorem assembleMd_complete (e : Event) (devnode idFsType : Text) :
    Complete Command.kind (assembleMd e devnode idFsType) := by
  unfold assembleMd
  split_ifs
  · exact (exec_complete (by decide) (by decide) _).append (locked_complete _)
  · exact exec_complete (by decide) (by decide) _
  · exact complete_nil

theorem deviceNode_complete (e : Event) (devnode : Text) : Complete Command.kind (deviceNode e devnode) := by
  unfold deviceNode
  split_ifs
  · exact exec_complete (by decide) (by decide) _
  · exact exec_complete (by decide) (by decide) _
  · exact complete_nil

theorem firmwareCommands_complete (e : Event) (f : Findings) :
    Complete Command.kind (firmwareCommands e f.libdir) := by
  have hecho (arg : Text) : Complete Command.kind [.exec ["echo".toList, arg]] :=
    exec_complete (by decide) (by decide) _
  change Complete Command.kind ([_] ++ [_] ++ [_])
  refine ((hecho "1".toList).append ?_).append (hecho "0".toList)
  unfold Findings.libdir
  split_ifs
  · exact exec_complete (by decide) (by decide) _
  · exact exec_complete (by decide) (by decide) _

theorem hotplug_complete (e : Event) (f : Findings) : Complete Command.kind (hotplug e f) := by
  refine Complete.append ?_ ?_
  · split_ifs
    · exact complete_nil
    · exact exec_complete (by decide) (by decide) _
  · split_ifs
    · exact firmwareCommands_complete e f
    · exact ((deviceNode_complete e _).append (startMd_complete e _)).append (assembleMd_complete e _ _)
    · exact complete_nil

theorem exec_unlocked {cs : List Command} (h : ∀ c ∈ cs, ∃ argv, c = .exec argv) :
    Unlocked Command.kind cs := by
  intro c hc
  obtain ⟨argv, rfl⟩ := h c hc
  rw [Command.kind]
  split_ifs <;> simp

theorem helper_unlocked (path : Text) : Unlocked Command.kind [.helper path] := by
  intro c hc
  rw [List.mem_singleton.mp hc]
  simp [Command.kind]

theorem findRoot_exec (ro root : Text) : ∀ c ∈ findRoot ro root, ∃ argv, c = .exec argv := by
  intro c hc
  simp only [findRoot, List.mem_cons, List.not_mem_nil, or_false] at hc
  rcases hc with rfl | rfl | rfl <;> exact ⟨_, rfl⟩

theorem initTemplate_unlocked (i : InitInput) : Unlocked Command.kind (initTemplate i) := by
  refine (((Unlocked.append (helper_unlocked _) ?_).append ?_).append ?_).append ?_
  · apply exec_unlocked
    intro c hc
    obtain ⟨d, -, rfl⟩ := List.mem_map.mp hc
    exact ⟨_, rfl⟩
  · apply exec_unlocked
    intro c hc
    exact ⟨_, List.mem_singleton.mp hc⟩
  · apply exec_unlocked
    intro c hc
    obtain ⟨m, -, rfl⟩ := List.mem_map.mp hc
    exact ⟨_, rfl⟩
  · split_ifs
    · apply exec_unlocked
      intro c hc
      exact ⟨_, List.mem_singleton.mp hc⟩
    · refine Unlocked.append ?_ ?_
      · apply exec_unlocked
        intro c hc
        obtain ⟨round, hround, hc⟩ := List.mem_flatten.mp hc
        rw [List.eq_of_mem_replicate hround] at hc
        exact findRoot_exec _ _ c hc
      · change Unlocked Command.kind ([_] ++ ([_] ++ [_, _, _]))
        refine Unlocked.append ?_ ((helper_unlocked []).append ?_)
        · apply exec_unlocked
          intro c hc
          exact ⟨_, List.mem_singleton.mp hc⟩
        · apply exec_unlocked
          intro c hc
          simp only [List.mem_cons, List.not_mem_nil, or_false] at hc
          rcases hc with rfl | rfl | rfl <;> exact ⟨_, rfl⟩

structure Boot.Sound (s : Boot) : Prop where
  unlocked : Unlocked Command.kind s.init.todo
  ordered : s.hotplugs.Ordered Command.kind
  one : OneMdadm s

theorem start_sound (i : InitInput) : (Boot.start i).Sound := by
  refine ⟨initTemplate_unlocked i, ⟨?_, rfl⟩, ?_⟩
  · intro p hp
    cases hp
  · simp [OneMdadm, Boot.start, mdadmRuns, Proc.start, Proc.inCritical]

theorem mdadmRuns_after (p : Proc Command) (lock : Bool) :
    mdadmRuns (p.step Command.kind lock).2 = p.starts Command.kind := Proc.inCritical_step p lock

theorem oneMdadm_iff (s : Boot) : OneMdadm s ↔
    s.hotplugs.procs.countP mdadmRuns + (if mdadmRuns s.init then 1 else 0) ≤ 1 := by
  rw [OneMdadm, List.countP_cons]

theorem countP_hotplug_step {s : Boot} {n : ℕ} {p : Proc Command} (hp : s.hotplugs.procs[n]? = some p) :
    (s.step (.hotplug n)).hotplugs.procs.countP mdadmRuns =
      s.hotplugs.procs.countP mdadmRuns - (if mdadmRuns p then 1 else 0) +
        (if p.starts Command.kind then 1 else 0) := by
  obtain ⟨hlt, hget⟩ := List.getElem?_eq_some_iff.mp hp
  simp only [Boot.step, Pool.step, hp]
  rw [List.countP_set hlt, hget, mdadmRuns_after]

theorem oneMdadm_init {s : Boot} (hone : OneMdadm s) (hm : Apart s .init) : OneMdadm (s.step .init) := by
  rw [oneMdadm_iff] at hone ⊢
  simp only [Boot.step, mdadmRuns_after]
  split_ifs with hstart
  · have hnone : s.hotplugs.procs.countP mdadmRuns = 0 := by
      apply List.countP_eq_zero.mpr
      intro p hp
      rw [hm hstart p hp]
      exact Bool.false_ne_true
    omega
  · omega

theorem oneMdadm_hotplug {s : Boot} {n : ℕ} (hone : OneMdadm s) (hm : Apart s (.hotplug n))
    (hordered : (s.step (.hotplug n)).hotplugs.Ordered Command.kind) : OneMdadm (s.step (.hotplug n)) := by
  cases hp : s.hotplugs.procs[n]? with
  | none =>
    have hsame : s.step (.hotplug n) = s := by simp only [Boot.step, Pool.step, hp]
    rw [hsame]
    exact hone
  | some p =>
    have hle : (s.step (.hotplug n)).hotplugs.procs.countP mdadmRuns ≤ 1 := hordered.critical_le
    rw [oneMdadm_iff] at hone ⊢
    change _ + (if mdadmRuns s.init then 1 else 0) ≤ 1
    by_cases hstart : p.starts Command.kind = true
    · rw [hm p hp hstart]
      simpa using hle
    · rw [countP_hotplug_step hp, if_neg hstart]
      omega

theorem oneMdadm_spawn {s : Boot} {e : Event} {f : Findings} (hone : OneMdadm s) :
    OneMdadm (s.step (.event e f)) := by
  simp only [Boot.step]
  split_ifs with hhelper
  · rw [oneMdadm_iff] at hone ⊢
    simpa [Pool.spawn, mdadmRuns, Proc.start, Proc.inCritical] using hone
  · exact hone

theorem Boot.Sound.step {s : Boot} (hs : s.Sound) {m : Move} (hm : Apart s m) : (s.step m).Sound := by
  cases m with
  | init =>
    have hinit := Proc.step_unlocked hs.unlocked s.hotplugs.lock
    refine ⟨hinit.2, ⟨hs.ordered.sound, ?_⟩, oneMdadm_init hs.one hm⟩
    change _ = (Proc.step Command.kind s.hotplugs.lock s.init).1.toNat
    rw [hinit.1]
    exact hs.ordered.holders
  | hotplug n =>
    have hordered := hs.ordered.step n
    exact ⟨hs.unlocked, hordered, oneMdadm_hotplug hs.one hm hordered⟩
  | event e f =>
    have hone : OneMdadm (s.step (.event e f)) := oneMdadm_spawn hs.one
    simp only [Boot.step] at hone ⊢
    split_ifs at hone ⊢ with hhelper
    · have hprogram := (hotplug_complete e f).bracketed
      exact ⟨hs.unlocked, hs.ordered.spawn hprogram.1 hprogram.2, hone⟩
    · exact hs

theorem not_oneMdadm {s : Boot} {m : Move} (hm : ¬ Apart s m) : ¬ OneMdadm (s.step m) := by
  intro hone
  rw [oneMdadm_iff] at hone
  apply hm
  cases m with
  | init =>
    intro hstart p hp
    simp only [Boot.step, mdadmRuns_after, hstart, if_true] at hone
    have hnone : s.hotplugs.procs.countP mdadmRuns = 0 := by omega
    exact Bool.eq_false_iff.mpr (List.countP_eq_zero.mp hnone p hp)
  | hotplug n =>
    intro p hp hstart
    rw [countP_hotplug_step hp, if_pos hstart] at hone
    change _ + (if mdadmRuns s.init then 1 else 0) ≤ 1 at hone
    by_contra hinit
    rw [if_pos (Bool.eq_true_of_not_eq_false hinit)] at hone
    omega
  | event e f => trivial

/-- The lock keeps the hotplug instances apart from each other, so two `mdadm` run at once only
by the script's own `mdadm --assemble`, which does not take the lock. -/
theorem oneMdadm_run_iff (i : InitInput) (ms : List Move) :
    (∀ s ∈ states Boot.step (.start i) ms, OneMdadm s) ↔ AllSteps Boot.step Apart (.start i) ms :=
  forall_states_iff (fun _ hs => hs.one) (fun _ _ hs hm => hs.step hm) (fun _ _ _ hm => not_oneMdadm hm)
    (start_sound i) ms

def memberAdded : Move :=
  .event ⟨"block".toList, "block".toList, "add".toList, "sda1".toList, "/block/sda/sda1".toList, [],
    "8".toList, "1".toList⟩ ⟨false, true, "linux_raid_member".toList⟩

def earlyMember : List Move :=
  [.init, .init, memberAdded] ++ List.replicate 6 (.hotplug 0) ++ [.init]

theorem assembly_during_incremental : ¬ ∀ (i : InitInput) (ms : List Move),
    ∀ s ∈ states Boot.step (.start i) ms, OneMdadm s := by
  intro h
  have hlast := h ⟨[], [], "/dev/md0".toList, "ro".toList, 0⟩ earlyMember _ (foldl_mem_states _ _)
  revert hlast
  decide +kernel

end CgxLayer.Ramdisk

import CgxLayer.Dict
import CgxLayer.Ramdisk.Hotplug
import CgxLayer.Ramdisk.Links

namespace CgxLayer.Ramdisk

open Text Locking Runs

structure BlockDev where
  major : Text
  minor : Text
  name : Text
deriving DecidableEq

abbrev Nodes := Dict Text (Text × Text)

def devNode (name : Text) : Text := "/dev/".toList ++ name

def Command.makes : Command → Option (Text × Text × Text)
  | .exec [name, m, mode, node, b, maj, min] =>
    if name = "/bin/mknod".toList ∧ m = "-m".toList ∧ mode = "0600".toList ∧ b = "b".toList then
      some (node, maj, min)
    else none
  | .exec [name, node, b, maj, min] =>
    if name = "mknod".toList ∧ b = "b".toList then some (node, maj, min) else none
  | _ => none

def Command.removes : Command → Option Text
  | .exec [name, node] => if name = "/bin/rm".toList then some node else none
  | _ => none

def mdLock : Text := "/dev/.md.lock".toList

-- Where a node can be made: its directory is there, and no directory, nor the lock, has its name.
def Room (dirs : List Text) (node : Text) : Prop := dirname node ∈ dirs ∧ node ∉ mdLock :: dirs

instance (dirs : List Text) (node : Text) : Decidable (Room dirs node) := inferInstanceAs (Decidable (_ ∧ _))

-- `mknod` also fails on a node that is there, and `rm` on one that is not.
def Command.nodesAfter (c : Command) (dirs : List Text) (nodes : Nodes) : Nodes :=
  match c.makes, c.removes with
  | some (node, num), _ => if node ∈ nodes.keys ∨ ¬ Room dirs node then nodes else nodes.set node num
  | none, some node => nodes.del node
  | none, none => nodes

def register (present : List BlockDev) (e : Event) : List BlockDev :=
  if e.subsystem = "block".toList then
    if e.action = "add".toList then ⟨e.major, e.minor, e.devname⟩ :: present
    else if e.action = "remove".toList then present.filter (fun d => d.name ≠ e.devname)
    else present
  else present

/-- The boot with the block devices the kernel has, the nodes under /dev, and the directories, which
stay as they are: neither script makes one there but the lock. -/
structure DeviceBoot where
  boot : Boot
  input : InitInput
  unread : Bool
  present : List BlockDev
  dirs : List Text
  nodes : Nodes

def hotplugFinal : Text := "/sbin/hotplug.final".toList

def activation : List Command := [.helper hotplugFinal]

-- What follows the activation; /proc/diskstats is read when the loop over it opens it.
def afterActivation (i : InitInput) (present : List BlockDev) : List Command :=
  (initTemplate { i with diskstats := present.map (fun d => (d.major, d.minor, d.name)) }).tail

def DeviceBoot.start (i : InitInput) (present : List BlockDev) (dirs : List Text) (nodes : Nodes) : DeviceBoot :=
  ⟨⟨[], .start activation, ⟨false, []⟩⟩, i, true, present, dirs, nodes⟩

def nodesAfter (ended : Option Command) (dirs : List Text) (nodes : Nodes) : Nodes :=
  (ended.map (fun c => c.nodesAfter dirs nodes)).getD nodes

def DeviceBoot.step (s : DeviceBoot) : Move → DeviceBoot
  | .init =>
    if s.unread = true ∧ s.boot.init.pending = [] then
      { s with
        unread := false
        boot := { s.boot with init := .start (afterActivation s.input s.present) } }
    else
      { s with boot := s.boot.step .init, nodes := nodesAfter s.boot.init.running s.dirs s.nodes }
  | .hotplug n =>
    { s with
      boot := s.boot.step (.hotplug n)
      nodes := nodesAfter (s.boot.hotplugs.running n) s.dirs s.nodes }
  | .event e f => { s with boot := s.boot.step (.event e f), present := register s.present e }

def DeviceBoot.pending (s : DeviceBoot) : List Command := s.boot.init.pending ++ s.boot.hotplugs.pending

def DeviceBoot.numbers (s : DeviceBoot) (n : Text) : Option (Text × Text) :=
  (s.present.find? (fun d => d.name = n)).map (fun d => (d.major, d.minor))

def Command.concerns (node : Text) (c : Command) : Prop :=
  (∃ num, c.makes = some (node, num)) ∨ c.removes = some node

def Idle (n : Text) (s : DeviceBoot) : Prop := ∀ c ∈ s.pending, ¬ c.concerns (devNode n)

/-- The kernel's events on the device come one at a time: each after the earlier ones are handled,
and an addition only where no such device is. -/
def InTurn (n : Text) (s : DeviceBoot) : Move → Prop
  | .event e _ => e.arg = e.subsystem ∧
      (e.subsystem = "block".toList → e.devname = n →
        (e.action = "add".toList → Idle n s ∧ s.numbers n = none) ∧ (e.action = "remove".toList → Idle n s))
  | _ => True

structure Matching (node : Text) (num : Option (Text × Text)) (todo : List Command) : Prop where
  makes : ∀ c ∈ todo, ∀ k, c.makes = some (node, k) → num = some k
  removes : ∀ c ∈ todo, c.removes = some node → num = none

def Fresh (node : Text) (num : Option (Text × Text)) (todo : List Command) (nodes : Nodes) : Prop :=
  ∀ k, nodes.get? node = some k → num = some k ∨ ∃ c ∈ todo, c.removes = some node

def Covered (node : Text) (num : Option (Text × Text)) (todo : List Command) (nodes : Nodes) : Prop :=
  ∀ k, num = some k → nodes.get? node = some k ∨ ∃ c ∈ todo, c.makes = some (node, k)

variable {node n : Text} {num : Option (Text × Text)} {todo rest : List Command} {dirs : List Text} {nodes : Nodes}

theorem Matching.sub (h : Matching node num todo) (hsub : ∀ c ∈ rest, c ∈ todo) : Matching node num rest :=
  ⟨fun c hc => h.makes c (hsub c hc), fun c hc => h.removes c (hsub c hc)⟩

theorem get?_del (d : Nodes) (k k' : Text) : (d.del k).get? k' = if k = k' then none else d.get? k' := by
  apply Option.ext
  intro b
  split_ifs with hk
  · rw [Dict.get?_eq_some, Dict.mem_del]
    simp [hk]
  · rw [Dict.get?_eq_some, Dict.get?_eq_some, Dict.mem_del]
    simp [Ne.symm hk]

theorem get?_nodesAfter_of_not_concerns {c : Command} (h : ¬ c.concerns node) (dirs : List Text) (nodes : Nodes) :
    (c.nodesAfter dirs nodes).get? node = nodes.get? node := by
  rw [Command.nodesAfter]
  cases hm : c.makes with
  | some p =>
    dsimp only
    split_ifs
    · rfl
    · rw [Dict.get?_set, if_neg (fun hp => h (.inl ⟨p.2, by rw [hm, ← hp]⟩))]
  | none =>
    cases hr : c.removes with
    | some p => rw [get?_del, if_neg (fun hp => h (.inr (by rw [hr, hp])))]
    | none => rfl

theorem get?_nodesAfter_makes {c : Command} {k : Text × Text} (h : c.makes = some (node, k))
    (hroom : Room dirs node) (nodes : Nodes) :
    (c.nodesAfter dirs nodes).get? node = some ((nodes.get? node).getD k) := by
  rw [Command.nodesAfter, h]
  dsimp only
  split_ifs with hmem
  · obtain ⟨a, ha⟩ := Dict.mem_keys_iff.mp (hmem.resolve_right (not_not_intro hroom))
    rw [Dict.get?_eq_some.mpr ha, Option.getD_some]
  · rw [Dict.get?_set, if_pos rfl, Dict.get?_eq_none.mpr (fun h => hmem (.inl h)), Option.getD_none]

theorem makes_of_removes {c : Command} (h : c.removes = some node) : c.makes = none := by
  unfold Command.removes at h
  split at h
  · rfl
  · cases h

theorem get?_nodesAfter_removes {c : Command} (h : c.removes = some node) (dirs : List Text) (nodes : Nodes) :
    (c.nodesAfter dirs nodes).get? node = none := by
  rw [Command.nodesAfter, makes_of_removes h, h]
  dsimp only
  rw [get?_del, if_pos rfl]

structure Ends (node : Text) (c : Option Command) (todo rest : List Command) : Prop where
  sub : ∀ d ∈ rest, d ∈ todo
  mem : ∀ d, c = some d → d ∈ todo
  kept : ∀ d ∈ todo, d.concerns node → c ≠ some d → d ∈ rest

theorem Fresh.ends {c : Option Command} (hroom : Room dirs node) (hm : Matching node num todo)
    (h : Fresh node num todo nodes) (he : Ends node c todo rest) :
    Fresh node num rest (nodesAfter c dirs nodes) := by
  have hsame : (∀ d, c = some d → ¬ d.concerns node) → ∀ k, nodes.get? node = some k →
      num = some k ∨ ∃ d ∈ rest, d.removes = some node := by
    intro hother k hk
    obtain hnum | ⟨d, hd, hr⟩ := h k hk
    · exact .inl hnum
    · exact .inr ⟨d, he.kept d hd (.inr hr) (fun hc => hother d hc (.inr hr)), hr⟩
  intro k hk
  cases c with
  | none => exact hsame (fun d hd => by cases hd) k hk
  | some c =>
    change (c.nodesAfter dirs nodes).get? node = some k at hk
    by_cases hc : c.concerns node
    · have hmem := he.mem c rfl
      obtain ⟨k', hmakes⟩ | hremoves := hc
      · have hnum := hm.makes c hmem k' hmakes
        rw [get?_nodesAfter_makes hmakes hroom, Option.some.injEq] at hk
        left
        cases hold : nodes.get? node with
        | none => rw [hnum, ← hk, hold, Option.getD_none]
        | some k₀ =>
          rw [hold, Option.getD_some] at hk
          obtain hnum₀ | ⟨d, hd, hr⟩ := h k₀ hold
          · rw [hnum₀, hk]
          · rw [hm.removes d hd hr] at hnum
            cases hnum
      · rw [get?_nodesAfter_removes hremoves] at hk
        cases hk
    · rw [get?_nodesAfter_of_not_concerns hc] at hk
      refine hsame (fun d hd => ?_) k hk
      cases hd
      exact hc

theorem Covered.ends {c : Option Command} (hroom : Room dirs node) (hm : Matching node num todo)
    (hf : Fresh node num todo nodes) (h : Covered node num todo nodes) (he : Ends node c todo rest) :
    Covered node num rest (nodesAfter c dirs nodes) := by
  intro k hnum
  have hkept : (∀ d, c = some d → ¬ d.concerns node) →
      nodes.get? node = some k ∨ ∃ d ∈ rest, d.makes = some (node, k) := by
    intro hother
    obtain hnode | ⟨d, hd, hmakes⟩ := h k hnum
    · exact .inl hnode
    · exact .inr ⟨d, he.kept d hd (.inl ⟨k, hmakes⟩) (fun hc => hother d hc (.inl ⟨k, hmakes⟩)), hmakes⟩
  cases c with
  | none => exact hkept (fun d hd => by cases hd)
  | some c =>
    change (c.nodesAfter dirs nodes).get? node = some k ∨ _
    by_cases hc : c.concerns node
    · have hmem := he.mem c rfl
      obtain ⟨k', hmakes⟩ | hremoves := hc
      · obtain rfl : k = k' := Option.some.inj (hnum.symm.trans (hm.makes c hmem k' hmakes))
        left
        rw [get?_nodesAfter_makes hmakes hroom]
        cases hold : nodes.get? node with
        | none => rfl
        | some k₀ =>
          obtain hnum₀ | ⟨d, hd, hr⟩ := hf k₀ hold
          · rw [Option.getD_some, ← hnum₀, hnum]
          · rw [hm.removes d hd hr] at hnum
            cases hnum
      · rw [hm.removes c hmem hremoves] at hnum
        cases hnum
    · rw [get?_nodesAfter_of_not_concerns hc]
      refine hkept (fun d hd => ?_)
      cases hd
      exact hc

theorem kind_of_concerns {c : Command} (h : c.concerns node) : c.kind ≠ .acquire ∧ c.kind ≠ .release := by
  cases c with
  | exec argv =>
    rw [Command.kind]
    split_ifs <;> decide
  | mdlock =>
    obtain ⟨k, hk⟩ | hr := h
    · cases hk
    · cases hr
  | mdunlock =>
    obtain ⟨k, hk⟩ | hr := h
    · cases hk
    · cases hr
  | helper path =>
    obtain ⟨k, hk⟩ | hr := h
    · cases hk
    · cases hr

theorem ends_init (s : DeviceBoot) : Ends node s.boot.init.running s.pending
    ((s.boot.init.step Command.kind s.boot.hotplugs.lock).2.pending ++ s.boot.hotplugs.pending) := by
  refine ⟨?_, ?_, ?_⟩
  · intro d hd
    obtain hd | hd := List.mem_append.mp hd
    · exact List.mem_append_left _ (Proc.mem_pending_of_step hd)
    · exact List.mem_append_right _ hd
  · intro d hd
    apply List.mem_append_left
    rw [Proc.pending, hd]
    exact List.mem_cons_self ..
  · intro d hd hconcerns hne
    have hkind := kind_of_concerns hconcerns
    obtain hd | hd := List.mem_append.mp hd
    · exact List.mem_append_left _ (Proc.mem_pending_step hd hkind.1 hkind.2 hne _)
    · exact List.mem_append_right _ hd

theorem ends_hotplug (s : DeviceBoot) (i : ℕ) : Ends node (s.boot.hotplugs.running i) s.pending
    (s.boot.init.pending ++ (s.boot.hotplugs.step Command.kind i).pending) := by
  refine ⟨?_, ?_, ?_⟩
  · intro d hd
    obtain hd | hd := List.mem_append.mp hd
    · exact List.mem_append_left _ hd
    · exact List.mem_append_right _ (Pool.mem_pending_of_step hd)
  · exact fun d hd => List.mem_append_right _ (Pool.running_mem_pending hd)
  · intro d hd hconcerns hne
    have hkind := kind_of_concerns hconcerns
    obtain hd | hd := List.mem_append.mp hd
    · exact List.mem_append_left _ hd
    · exact List.mem_append_right _ (Pool.mem_pending_step hd hkind.1 hkind.2 hne)

theorem devNode_injective {m n : Text} (h : devNode m = devNode n) : m = n := List.append_cancel_left h

def Other (c : Command) : Prop := ∀ node, ¬ c.concerns node

theorem other_exec {name : Text} (hmk : name ≠ "/bin/mknod".toList) (hmk' : name ≠ "mknod".toList)
    (hrm : name ≠ "/bin/rm".toList) (args : List Text) : Other (.exec (name :: args)) := by
  intro node hc
  obtain ⟨k, hmakes⟩ | hremoves := hc
  · unfold Command.makes at hmakes
    split at hmakes
    · rename_i heq
      obtain ⟨rfl, -⟩ := List.cons.inj (Command.exec.inj heq)
      rw [if_neg (fun h => hmk h.1)] at hmakes
      cases hmakes
    · rename_i heq
      obtain ⟨rfl, -⟩ := List.cons.inj (Command.exec.inj heq)
      rw [if_neg (fun h => hmk' h.1)] at hmakes
      cases hmakes
    · cases hmakes
  · unfold Command.removes at hremoves
    split at hremoves
    · rename_i heq
      obtain ⟨rfl, -⟩ := List.cons.inj (Command.exec.inj heq)
      rw [if_neg hrm] at hremoves
      cases hremoves
    · cases hremoves

theorem other_locked {name : Text} (hmk : name ≠ "/bin/mknod".toList) (hmk' : name ≠ "mknod".toList)
    (hrm : name ≠ "/bin/rm".toList) (args : List Text) : ∀ c ∈ locked (name :: args), Other c := by
  intro c hc
  simp only [locked, List.mem_cons, List.not_mem_nil, or_false] at hc
  obtain rfl | rfl | rfl := hc
  · exact fun node hc => (kind_of_concerns hc).1 rfl
  · exact other_exec hmk hmk' hrm args
  · exact fun node hc => (kind_of_concerns hc).2 rfl

def mknodCommand (e : Event) : Command :=
  .exec ["/bin/mknod".toList, "-m".toList, "0600".toList, devNode e.devname, "b".toList, e.major, e.minor]

def rmCommand (e : Event) : Command := .exec ["/bin/rm".toList, devNode e.devname]

theorem hotplug_cases {e : Event} {f : Findings} {c : Command} (hc : c ∈ hotplug e f) : Other c ∨
    e.subsystem = "block".toList ∧ (e.action = "add".toList ∧ c = mknodCommand e ∨
      e.action = "remove".toList ∧ c = rmCommand e) := by
  unfold hotplug at hc
  obtain hc | hc := List.mem_append.mp hc
  · left
    split_ifs at hc
    · cases hc
    · rw [List.mem_singleton.mp hc]
      exact other_exec (by decide) (by decide) (by decide) _
  · split_ifs at hc with hfirmware hblock
    · left
      simp only [firmwareCommands, List.mem_cons, List.not_mem_nil, or_false] at hc
      obtain rfl | rfl | rfl := hc
      · exact other_exec (by decide) (by decide) (by decide) _
      · rw [Findings.libdir]
        split_ifs
        · exact other_exec (by decide) (by decide) (by decide) _
        · exact other_exec (by decide) (by decide) (by decide) _
      · exact other_exec (by decide) (by decide) (by decide) _
    · obtain hc | hc := List.mem_append.mp hc
      · obtain hc | hc := List.mem_append.mp hc
        · right
          refine ⟨hblock, ?_⟩
          unfold deviceNode at hc
          split_ifs at hc with hadd hremove
          · exact .inl ⟨hadd, List.mem_singleton.mp hc⟩
          · exact .inr ⟨hremove, List.mem_singleton.mp hc⟩
          · cases hc
        · left
          unfold startMd at hc
          split_ifs at hc
          · exact other_locked (by decide) (by decide) (by decide) _ c hc
          · cases hc
      · left
        unfold assembleMd at hc
        split_ifs at hc
        · obtain rfl | hc := List.mem_cons.mp hc
          · exact other_exec (by decide) (by decide) (by decide) _
          · exact other_locked (by decide) (by decide) (by decide) _ c hc
        · rw [List.mem_singleton.mp hc]
          exact other_exec (by decide) (by decide) (by decide) _
        · cases hc
    · cases hc

theorem mem_hotplug_block {e : Event} {f : Findings} (harg : e.arg = e.subsystem)
    (hblock : e.subsystem = "block".toList) :
    (e.action = "add".toList → mknodCommand e ∈ hotplug e f) ∧
      (e.action = "remove".toList → rmCommand e ∈ hotplug e f) := by
  have hfirmware : ¬ e.arg = "firmware".toList := by
    rw [harg, hblock]
    decide
  have hmem : ∀ c ∈ deviceNode e (devNode e.devname), c ∈ hotplug e f := by
    intro c hc
    rw [hotplug]
    apply List.mem_append_right
    rw [if_neg hfirmware, if_pos hblock]
    exact List.mem_append_left _ (List.mem_append_left _ hc)
  constructor
  · intro hadd
    apply hmem
    rw [deviceNode, if_pos hadd]
    exact List.mem_singleton_self _
  · intro hremove
    apply hmem
    rw [deviceNode, if_neg (by rw [hremove]; decide), if_pos hremove]
    exact List.mem_singleton_self _

theorem mknodCommand_makes (e : Event) : (mknodCommand e).makes = some (devNode e.devname, e.major, e.minor) := rfl

theorem rmCommand_removes (e : Event) : (rmCommand e).removes = some (devNode e.devname) := rfl

def coldCommand (d : BlockDev) : Command :=
  .exec ["mknod".toList, devNode d.name, "b".toList, d.major, d.minor]

theorem coldCommand_makes (d : BlockDev) : (coldCommand d).makes = some (devNode d.name, d.major, d.minor) := rfl

theorem afterActivation_cases {i : InitInput} {present : List BlockDev} {c : Command}
    (hc : c ∈ afterActivation i present) : Other c ∨ ∃ d ∈ present, c = coldCommand d := by
  have hother (path : Text) : Other (.helper path) := by
    rintro node (⟨k, hk⟩ | hr)
    · cases hk
    · cases hr
  simp only [afterActivation, initTemplate, List.append_assoc, List.cons_append, List.tail_cons,
    List.nil_append] at hc
  obtain hc | hc := List.mem_append.mp hc
  · right
    simp only [List.map_map] at hc
    obtain ⟨d, hd, rfl⟩ := List.mem_map.mp hc
    exact ⟨d, hd, rfl⟩
  · left
    obtain rfl | hc := List.mem_cons.mp hc
    · exact other_exec (by decide) (by decide) (by decide) _
    · obtain hc | hc := List.mem_append.mp hc
      · obtain ⟨m, -, rfl⟩ := List.mem_map.mp hc
        exact other_exec (by decide) (by decide) (by decide) _
      · split_ifs at hc
        · rw [List.mem_singleton.mp hc]
          exact other_exec (by decide) (by decide) (by decide) _
        · obtain hc | hc := List.mem_append.mp hc
          · obtain ⟨round, hround, hc⟩ := List.mem_flatten.mp hc
            rw [List.eq_of_mem_replicate hround] at hc
            simp only [findRoot, List.mem_cons, List.not_mem_nil, or_false] at hc
            obtain rfl | rfl | rfl := hc <;> exact other_exec (by decide) (by decide) (by decide) _
          · simp only [List.mem_cons, List.not_mem_nil, or_false] at hc
            obtain rfl | rfl | rfl | rfl | rfl := hc
            · exact other_exec (by decide) (by decide) (by decide) _
            · exact hother []
            · exact other_exec (by decide) (by decide) (by decide) _
            · exact other_exec (by decide) (by decide) (by decide) _
            · exact other_exec (by decide) (by decide) (by decide) _

theorem mem_afterActivation {i : InitInput} {present : List BlockDev} {d : BlockDev} (hd : d ∈ present) :
    coldCommand d ∈ afterActivation i present := by
  simp only [afterActivation, initTemplate, List.append_assoc, List.cons_append, List.tail_cons,
    List.nil_append, List.map_map]
  exact List.mem_append_left _ (List.mem_map.mpr ⟨d, hd, rfl⟩)

theorem helper_afterActivation {i : InitInput} {present : List BlockDev} {path : Text}
    (h : Command.helper path ∈ afterActivation i present) : path = [] := by
  simp only [afterActivation, initTemplate, List.append_assoc, List.cons_append, List.tail_cons,
    List.nil_append, List.mem_append, List.mem_cons, List.mem_map, reduceCtorEq, and_false, exists_false, false_or] at h
  split_ifs at h
  · simp at h
  · simp only [List.mem_append, List.mem_flatten, List.mem_cons, reduceCtorEq, Command.helper.injEq, List.not_mem_nil,
      or_false, false_or] at h
    obtain ⟨round, hround, hc⟩ | rfl := h
    · rw [List.eq_of_mem_replicate hround] at hc
      simp [findRoot] at hc
    · rfl

def Starting (n : Text) (s : DeviceBoot) : Prop :=
  (s.boot.init = .start activation ∧ s.boot.helper = [] ∧ s.boot.hotplugs.procs = [] ∧
      s.nodes.get? (devNode n) = none) ∨
    (s.boot.helper = hotplugFinal ∧ s.boot.init.todo = [])

structure Tracked (n : Text) (s : DeviceBoot) : Prop where
  room : Room s.dirs (devNode n)
  unique : ∀ d ∈ s.present, ∀ d' ∈ s.present, d.name = n → d'.name = n → d = d'
  matching : Matching (devNode n) (s.numbers n) s.pending
  fresh : s.unread = true ∨ s.boot.helper = hotplugFinal →
    Fresh (devNode n) (s.numbers n) s.pending s.nodes
  covered : s.unread = false → s.boot.helper = hotplugFinal →
    Covered (devNode n) (s.numbers n) s.pending s.nodes
  starting : s.unread = true → Starting n s
  ending : s.unread = false → ∀ path, .helper path ∈ s.boot.init.todo → path = []

theorem numbers_of_mem {s : DeviceBoot}
    (hunique : ∀ d ∈ s.present, ∀ d' ∈ s.present, d.name = n → d'.name = n → d = d')
    {d : BlockDev} (hd : d ∈ s.present) (hname : d.name = n) : s.numbers n = some (d.major, d.minor) := by
  rw [DeviceBoot.numbers]
  cases hfind : s.present.find? (fun d => d.name = n) with
  | none => exact absurd hname (by simpa using List.find?_eq_none.mp hfind d hd)
  | some d' =>
    have hname' : d'.name = n := by simpa using List.find?_some hfind
    rw [Option.map_some, hunique d hd d' (List.mem_of_find?_eq_some hfind) hname hname']

theorem mem_of_numbers {s : DeviceBoot} {k : Text × Text} (h : s.numbers n = some k) :
    ∃ d ∈ s.present, d.name = n ∧ k = (d.major, d.minor) := by
  obtain ⟨d, hd, rfl⟩ := Option.map_eq_some_iff.mp h
  exact ⟨d, List.mem_of_find?_eq_some hd, by simpa using List.find?_some hd, rfl⟩

theorem helperAfter_final {helper : Text} {p : Proc Command} (hp : ∀ path, .helper path ∈ p.todo → path = [])
    (h : helperAfter helper p = hotplugFinal) : helper = hotplugFinal := by
  unfold helperAfter at h
  split at h
  · rename_i path _ hrun htodo
    have hpath := hp path (htodo ▸ List.mem_cons_self ..)
    rw [hpath] at h
    exact absurd h (by decide)
  · exact h

theorem mem_todo_of_step {p : Proc Command} {lock : Bool} {c : Command} (hc : c ∈ (p.step Command.kind lock).2.todo) :
    c ∈ p.todo := by
  obtain ⟨running, todo⟩ := p
  cases running with
  | some d => exact hc
  | none =>
    cases todo with
    | nil => exact hc
    | cons d todo =>
      cases hk : d.kind <;> cases lock <;> simp only [Proc.step, hk] at hc <;>
        first | exact hc | exact List.mem_cons_of_mem _ hc

theorem Starting.init {s : DeviceBoot} (h : Starting n s) (hp : s.boot.init.pending ≠ []) :
    Starting n { s with boot := s.boot.step .init, nodes := nodesAfter s.boot.init.running s.dirs s.nodes } := by
  right
  obtain ⟨hinit, -⟩ | ⟨hhelper, htodo⟩ := h
  · simp only [Boot.step, hinit]
    exact ⟨rfl, rfl⟩
  · cases hrun : s.boot.init.running with
    | none => exact absurd (by rw [Proc.pending, hrun, htodo]; rfl) hp
    | some c =>
      constructor
      · simp only [Boot.step, helperAfter, hrun]
        exact hhelper
      · simp only [Boot.step, Proc.step, hrun]
        exact htodo

theorem Tracked.read {s : DeviceBoot} (h : Tracked n s) (hunread : s.unread = true) (hp : s.boot.init.pending = []) :
    Tracked n { s with
      unread := false
      boot := { s.boot with init := .start (afterActivation s.input s.present) } } := by
  have hold : s.pending = s.boot.hotplugs.pending := by rw [DeviceBoot.pending, hp, List.nil_append]
  have hmatching := h.matching
  have hfresh := h.fresh (.inl hunread)
  rw [hold] at hmatching hfresh
  refine ⟨h.room, h.unique, ⟨?_, ?_⟩, fun _ => ?_, fun _ _ => ?_, fun hfalse => (Bool.false_ne_true hfalse).elim, ?_⟩
  · intro c hc k hmakes
    obtain hc | hc := List.mem_append.mp hc
    · obtain hother | ⟨d, hd, rfl⟩ := afterActivation_cases hc
      · exact absurd (.inl ⟨k, hmakes⟩) (hother _)
      · rw [coldCommand_makes] at hmakes
        obtain ⟨hnode, rfl⟩ := Prod.mk.inj (Option.some.inj hmakes)
        exact numbers_of_mem h.unique hd (devNode_injective hnode)
    · exact hmatching.makes c hc k hmakes
  · intro c hc hremoves
    obtain hc | hc := List.mem_append.mp hc
    · obtain hother | ⟨d, hd, rfl⟩ := afterActivation_cases hc
      · exact absurd (.inr hremoves) (hother _)
      · cases hremoves
    · exact hmatching.removes c hc hremoves
  · intro k hk
    obtain hnum | ⟨c, hc, hr⟩ := hfresh k hk
    · exact .inl hnum
    · exact .inr ⟨c, List.mem_append_right _ hc, hr⟩
  · intro k hnum
    obtain ⟨d, hd, rfl, rfl⟩ := mem_of_numbers hnum
    exact .inr ⟨coldCommand d, List.mem_append_left _ (mem_afterActivation hd), rfl⟩
  · exact fun _ path hpath => helper_afterActivation hpath

theorem Tracked.init {s : DeviceBoot} (h : Tracked n s) (hp : s.unread = true → s.boot.init.pending ≠ []) :
    Tracked n { s with boot := s.boot.step .init, nodes := nodesAfter s.boot.init.running s.dirs s.nodes } := by
  have hends : Ends (devNode n) .. := ends_init s
  have hlive : s.unread = true ∨ helperAfter s.boot.helper s.boot.init = hotplugFinal →
      s.unread = true ∨ s.boot.helper = hotplugFinal := by
    rintro (hunread | hhelper)
    · exact .inl hunread
    · cases hunread : s.unread with
      | true => exact .inl rfl
      | false => exact .inr (helperAfter_final (h.ending hunread) hhelper)
  refine ⟨h.room, h.unique, h.matching.sub hends.sub,
    fun hactive => (h.fresh (hlive hactive)).ends h.room h.matching hends, ?_,
    fun hunread => (h.starting hunread).init (hp hunread),
    fun hunread path hpath => h.ending hunread path (mem_todo_of_step hpath)⟩
  intro hunread hhelper
  have hold := helperAfter_final (h.ending hunread) hhelper
  exact (h.covered hunread hold).ends h.room h.matching (h.fresh (.inr hold)) hends

theorem Tracked.hotplugStep {s : DeviceBoot} (h : Tracked n s) (i : ℕ) : Tracked n (s.step (.hotplug i)) := by
  have hends : Ends (devNode n) .. := ends_hotplug s i
  refine ⟨h.room, h.unique, h.matching.sub hends.sub,
    fun hactive => (h.fresh hactive).ends h.room h.matching hends,
    fun hunread hhelper => (h.covered hunread hhelper).ends h.room h.matching (h.fresh (.inr hhelper)) hends,
    ?_, h.ending⟩
  intro hunread
  obtain ⟨hinit, hhelper, hprocs, hnode⟩ | hstarted := h.starting hunread
  · left
    have hnone : s.boot.hotplugs.procs[i]? = none := by rw [hprocs]; rfl
    refine ⟨hinit, hhelper, ?_, ?_⟩
    · simp only [DeviceBoot.step, Boot.step, Pool.step, hnone]
      exact hprocs
    · simp only [DeviceBoot.step, Pool.running, hnone]
      exact hnode
  · exact .inr hstarted

def Concerning (n : Text) (e : Event) : Prop :=
  e.subsystem = "block".toList ∧ e.devname = n ∧ (e.action = "add".toList ∨ e.action = "remove".toList)

theorem not_concerns_hotplug {e : Event} (he : ¬ Concerning n e) (f : Findings) :
    ∀ c ∈ hotplug e f, ¬ c.concerns (devNode n) := by
  intro c hc hconcerns
  obtain hother | ⟨hblock, ⟨hadd, rfl⟩ | ⟨hremove, rfl⟩⟩ := hotplug_cases hc
  · exact hother _ hconcerns
  · obtain ⟨k, hk⟩ | hr := hconcerns
    · rw [mknodCommand_makes] at hk
      exact he ⟨hblock, devNode_injective (Prod.mk.inj (Option.some.inj hk)).1, .inl hadd⟩
    · cases hr
  · obtain ⟨k, hk⟩ | hr := hconcerns
    · cases hk
    · rw [rmCommand_removes] at hr
      exact he ⟨hblock, devNode_injective (Option.some.inj hr), .inr hremove⟩

theorem find_filter {p q : BlockDev → Bool} (h : ∀ d, p d = true → q d = true) (l : List BlockDev) :
    (l.filter q).find? p = l.find? p := by
  induction l with
  | nil => rfl
  | cons d l ih =>
    cases hp : p d with
    | true => rw [List.filter_cons_of_pos (h d hp), List.find?_cons_of_pos hp, List.find?_cons_of_pos hp]
    | false =>
      rw [List.find?_cons_of_neg (by simp [hp])]
      cases hq : q d with
      | true => rw [List.filter_cons_of_pos hq, List.find?_cons_of_neg (by simp [hp]), ih]
      | false => rw [List.filter_cons_of_neg (by simp [hq]), ih]

theorem find_register {e : Event} (he : ¬ Concerning n e) (present : List BlockDev) :
    (register present e).find? (fun d => d.name = n) = present.find? (fun d => d.name = n) := by
  unfold register
  split_ifs with hblock hadd hremove
  · rw [List.find?_cons_of_neg]
    simpa using fun hname => he ⟨hblock, hname, .inl hadd⟩
  · apply find_filter
    intro d hd
    have hname : d.name = n := of_decide_eq_true hd
    simpa [hname] using fun h => he ⟨hblock, h.symm, .inr hremove⟩
  · rfl
  · rfl

theorem mem_register {e : Event} {present : List BlockDev} {d : BlockDev} (hd : d ∈ register present e) :
    d ∈ present ∨ (e.subsystem = "block".toList ∧ e.action = "add".toList ∧ d = ⟨e.major, e.minor, e.devname⟩) := by
  unfold register at hd
  split_ifs at hd with hblock hadd hremove
  · obtain rfl | hd := List.mem_cons.mp hd
    · exact .inr ⟨hblock, hadd, rfl⟩
    · exact .inl hd
  · exact .inl (List.mem_of_mem_filter hd)
  · exact .inl hd
  · exact .inl hd

theorem pending_event (s : DeviceBoot) (e : Event) (f : Findings) : (s.step (.event e f)).pending =
    if s.boot.helper = hotplugFinal then s.pending ++ hotplug e f else s.pending := by
  change (if s.boot.helper = hotplugFinal then { s.boot with hotplugs := s.boot.hotplugs.spawn (hotplug e f) }
    else s.boot).init.pending ++ (if s.boot.helper = hotplugFinal then
      { s.boot with hotplugs := s.boot.hotplugs.spawn (hotplug e f) } else s.boot).hotplugs.pending = _
  split_ifs
  · rw [Pool.pending_spawn, DeviceBoot.pending, List.append_assoc]
  · rfl

theorem event_helper (s : DeviceBoot) (e : Event) (f : Findings) :
    (s.step (.event e f)).boot.helper = s.boot.helper ∧ (s.step (.event e f)).boot.init = s.boot.init := by
  simp only [DeviceBoot.step, Boot.step]
  split_ifs <;> exact ⟨rfl, rfl⟩

theorem Starting.event {s : DeviceBoot} (h : Starting n s) (e : Event) (f : Findings) :
    Starting n (s.step (.event e f)) := by
  obtain ⟨hinit, hhelper, hprocs, hnode⟩ | ⟨hhelper, htodo⟩ := h
  · left
    have hoff : ¬ s.boot.helper = "/sbin/hotplug.final".toList := by
      rw [hhelper]
      decide
    simp only [DeviceBoot.step, Boot.step, if_neg hoff]
    exact ⟨hinit, hhelper, hprocs, hnode⟩
  · right
    rw [(event_helper s e f).1, (event_helper s e f).2]
    exact ⟨hhelper, htodo⟩

theorem Tracked.other {s : DeviceBoot} (h : Tracked n s) {e : Event} (he : ¬ Concerning n e) (f : Findings) :
    Tracked n (s.step (.event e f)) := by
  have hnumbers : (s.step (.event e f)).numbers n = s.numbers n := by
    simp only [DeviceBoot.numbers, DeviceBoot.step, find_register he]
  have hhelper := (event_helper s e f).1
  have hpending : ∀ c, c.concerns (devNode n) → (c ∈ (s.step (.event e f)).pending ↔ c ∈ s.pending) := by
    intro c hc
    rw [pending_event]
    split_ifs
    · rw [List.mem_append]
      exact or_iff_left (fun hmem => not_concerns_hotplug he f c hmem hc)
    · rfl
  refine ⟨h.room, ?_, ?_, ?_, ?_, fun hunread => (h.starting hunread).event e f, ?_⟩
  · intro d hd d' hd' hname hname'
    have hold : ∀ d ∈ register s.present e, d.name = n → d ∈ s.present := by
      intro d hd hname
      obtain hd | ⟨hblock, hadd, rfl⟩ := mem_register hd
      · exact hd
      · exact absurd ⟨hblock, hname, .inl hadd⟩ he
    exact h.unique d (hold d hd hname) d' (hold d' hd' hname') hname hname'
  · rw [hnumbers]
    constructor
    · exact fun c hc k hk => h.matching.makes c ((hpending c (.inl ⟨k, hk⟩)).mp hc) k hk
    · exact fun c hc hr => h.matching.removes c ((hpending c (.inr hr)).mp hc) hr
  · rw [hhelper, hnumbers]
    intro hlive k hk
    obtain hnum | ⟨c, hc, hr⟩ := h.fresh hlive k hk
    · exact .inl hnum
    · exact .inr ⟨c, (hpending c (.inr hr)).mpr hc, hr⟩
  · rw [hhelper, hnumbers]
    intro hunread hactive k hk
    obtain hnode | ⟨c, hc, hmakes⟩ := h.covered hunread hactive k hk
    · exact .inl hnode
    · exact .inr ⟨c, (hpending c (.inl ⟨k, hmakes⟩)).mpr hc, hmakes⟩
  · rw [(event_helper s e f).2]
    exact h.ending

theorem Tracked.no_node {s : DeviceBoot} (h : Tracked n s) (hidle : Idle n s) (hnumbers : s.numbers n = none)
    (hlive : s.unread = true ∨ s.boot.helper = hotplugFinal) (k : Text × Text) :
    s.nodes.get? (devNode n) ≠ some k := by
  intro hk
  obtain hnum | ⟨c, hc, hr⟩ := h.fresh hlive k hk
  · rw [hnumbers] at hnum
    cases hnum
  · exact hidle c hc (.inr hr)

theorem Tracked.add {s : DeviceBoot} (h : Tracked n s) {e : Event} (harg : e.arg = e.subsystem)
    (hblock : e.subsystem = "block".toList) (hname : e.devname = n) (hadd : e.action = "add".toList)
    (hidle : Idle n s) (hnone : s.numbers n = none) (f : Findings) : Tracked n (s.step (.event e f)) := by
  have hregister : (s.step (.event e f)).present = ⟨e.major, e.minor, e.devname⟩ :: s.present := by
    simp only [DeviceBoot.step, register, if_pos hblock, if_pos hadd]
  have hnumbers : (s.step (.event e f)).numbers n = some (e.major, e.minor) := by
    rw [DeviceBoot.numbers, hregister, List.find?_cons_of_pos (by simpa using hname)]
    rfl
  have hhelper := (event_helper s e f).1
  have habsent : ∀ d ∈ s.present, d.name ≠ n := by
    intro d hd hdn
    rw [numbers_of_mem h.unique hd hdn] at hnone
    cases hnone
  refine ⟨h.room, ?_, ?_, ?_, ?_, fun hunread => (h.starting hunread).event e f, ?_⟩
  · rw [hregister]
    intro d hd d' hd' hdn hdn'
    obtain rfl | hd := List.mem_cons.mp hd
    · obtain rfl | hd' := List.mem_cons.mp hd'
      · rfl
      · exact absurd hdn' (habsent d' hd')
    · exact absurd hdn (habsent d hd)
  · rw [hnumbers, pending_event]
    have hnew : Matching (devNode n) (some (e.major, e.minor)) (s.pending ++ hotplug e f) := by
      constructor
      · intro c hc k hk
        obtain hc | hc := List.mem_append.mp hc
        · exact absurd (.inl ⟨k, hk⟩) (hidle c hc)
        · obtain hother | ⟨-, ⟨-, rfl⟩ | ⟨-, rfl⟩⟩ := hotplug_cases hc
          · exact absurd (.inl ⟨k, hk⟩) (hother _)
          · rw [mknodCommand_makes] at hk
            rw [← (Prod.mk.inj (Option.some.inj hk)).2]
          · cases hk
      · intro c hc hr
        obtain hc | hc := List.mem_append.mp hc
        · exact absurd (.inr hr) (hidle c hc)
        · obtain hother | ⟨-, ⟨-, rfl⟩ | ⟨hremove, -⟩⟩ := hotplug_cases hc
          · exact absurd (.inr hr) (hother _)
          · cases hr
          · rw [hadd] at hremove
            exact absurd hremove (by decide)
    split_ifs
    · exact hnew
    · exact hnew.sub (fun c hc => List.mem_append_left _ hc)
  · rw [hhelper]
    intro hlive k hk
    exact absurd hk (h.no_node hidle hnone hlive k)
  · rw [hhelper, hnumbers, pending_event]
    rintro - hactive k ⟨⟩
    rw [if_pos hactive]
    refine .inr ⟨mknodCommand e, List.mem_append_right _ ((mem_hotplug_block harg hblock).1 hadd), ?_⟩
    rw [mknodCommand_makes, hname]
  · rw [(event_helper s e f).2]
    exact h.ending

theorem Tracked.remove {s : DeviceBoot} (h : Tracked n s) {e : Event} (harg : e.arg = e.subsystem)
    (hblock : e.subsystem = "block".toList) (hname : e.devname = n) (hremove : e.action = "remove".toList)
    (hidle : Idle n s) (f : Findings) : Tracked n (s.step (.event e f)) := by
  have hnotAdd : e.action ≠ "add".toList := by
    rw [hremove]
    decide
  have hregister : (s.step (.event e f)).present = s.present.filter (fun d => d.name ≠ n) := by
    simp only [DeviceBoot.step, register, if_pos hblock, if_neg hnotAdd, if_pos hremove, hname]
  have hnumbers : (s.step (.event e f)).numbers n = none := by
    rw [DeviceBoot.numbers, hregister, Option.map_eq_none_iff, List.find?_eq_none]
    intro d hd
    simpa using (List.mem_filter.mp hd).2
  have hhelper := (event_helper s e f).1
  refine ⟨h.room, ?_, ?_, ?_, ?_, fun hunread => (h.starting hunread).event e f, ?_⟩
  · rw [hregister]
    intro d hd d' _ hdn _
    have hne := (List.mem_filter.mp hd).2
    simp [hdn] at hne
  · rw [hnumbers, pending_event]
    have hnew : Matching (devNode n) none (s.pending ++ hotplug e f) := by
      refine ⟨fun c hc k hk => ?_, fun _ _ _ => rfl⟩
      obtain hc | hc := List.mem_append.mp hc
      · exact absurd (.inl ⟨k, hk⟩) (hidle c hc)
      · obtain hother | ⟨-, ⟨hadd, -⟩ | ⟨-, rfl⟩⟩ := hotplug_cases hc
        · exact absurd (.inl ⟨k, hk⟩) (hother _)
        · exact absurd hadd hnotAdd
        · cases hk
    split_ifs
    · exact hnew
    · exact hnew.sub (fun c hc => List.mem_append_left _ hc)
  · rw [hhelper, pending_event]
    intro hlive k hk
    by_cases hactive : s.boot.helper = hotplugFinal
    · right
      rw [if_pos hactive]
      refine ⟨rmCommand e, List.mem_append_right _ ((mem_hotplug_block harg hblock).2 hremove), ?_⟩
      rw [rmCommand_removes, hname]
    -- before the activation there is no node yet
    · obtain hunread | hactive' := hlive
      · obtain ⟨-, -, -, hnode⟩ | ⟨hstarted, -⟩ := h.starting hunread
        · rw [show (s.step (.event e f)).nodes = s.nodes from rfl, hnode] at hk
          cases hk
        · exact absurd hstarted hactive
      · exact absurd hactive' hactive
  · rw [hnumbers]
    intro _ _ k hk
    cases hk
  · rw [(event_helper s e f).2]
    exact h.ending

theorem Tracked.step {s : DeviceBoot} (h : Tracked n s) {m : Move} (hm : InTurn n s m) : Tracked n (s.step m) := by
  cases m with
  | init =>
    by_cases hread : s.unread = true ∧ s.boot.init.pending = []
    · rw [DeviceBoot.step, if_pos hread]
      exact h.read hread.1 hread.2
    · rw [DeviceBoot.step, if_neg hread]
      exact h.init (fun hunread hp => hread ⟨hunread, hp⟩)
  | hotplug i => exact h.hotplugStep i
  | event e f =>
    obtain ⟨harg, hturn⟩ := hm
    by_cases he : Concerning n e
    · obtain ⟨hblock, hname, hadd | hremove⟩ := he
      · obtain ⟨hidle, hnone⟩ := (hturn hblock hname).1 hadd
        exact h.add harg hblock hname hadd hidle hnone f
      · exact h.remove harg hblock hname hremove ((hturn hblock hname).2 hremove) f
    · exact h.other he f

instance (node : Text) (c : Command) : Decidable (c.concerns node) :=
  decidable_of_iff (c.makes.map Prod.fst = some node ∨ c.removes = some node)
    (or_congr_left ⟨fun h => by
      obtain ⟨⟨p, k⟩, hk, rfl⟩ := Option.map_eq_some_iff.mp h
      exact ⟨k, hk⟩, fun ⟨k, hk⟩ => by rw [hk]; rfl⟩)

instance (n : Text) (s : DeviceBoot) : Decidable (Idle n s) := inferInstanceAs (Decidable (∀ c ∈ s.pending, _))

end CgxLayer.Ramdisk

import CgxLayer.Sysvinit.Rc

namespace CgxLayer.Lxc

open Text Sysvinit

-- `[SK]??` and the service
def matchesService (service name : Text) : Bool :=
  match name with
  | c :: _ :: _ :: s => (c = 'S' ∨ c = 'K') ∧ s = service
  | _ => false

def removeScript (service : Text) (etc : Etc) : Etc := { etc with initd := etc.initd.filter (· ≠ service) }

def removeLinks (service : Text) (etc : Etc) : Etc :=
  { etc with
    rcd := fun l => (etc.rcd l).map (fun es =>
      es.filter (fun e => !(matchesService service e.name && e.target.isSome))) }

def disableService (service : Text) (script : Bool) (etc : Etc) : Etc :=
  let etc := removeLinks service etc
  if script then removeScript service etc else etc

inductive Disabling where
  | service (name : Text) (script : Bool)
  | script (name : Text)

def Disabling.name : Disabling → Text
  | .service name _ => name
  | .script name => name

def Disabling.apply (etc : Etc) : Disabling → Etc
  | .service name remove => disableService name remove etc
  | .script name => removeScript name etc

def disabled : List Disabling :=
  [.service "udev".toList true, .script "udev-cache".toList, .service "hwclock.sh".toList true,
    .service "devices".toList true, .service "acpid".toList true, .service "checkroot".toList true,
    .service "dbus-1".toList false, .service "devpts.sh".toList true, .service "modutils.sh".toList true,
    .service "mountnfs.sh".toList true, .service "ramdisk".toList true, .service "run-postinsts".toList false,
    .service "save-rtc.sh".toList true, .service "sysfs".toList false, .script "sysfs.sh".toList,
    .service "umountfs".toList true, .service "umountnfs.sh".toList true]

def disableMvlinuxServices (etc : Etc) : Etc := disabled.foldl Disabling.apply etc

/-- `etc'` is `etc` without the service: its entries are removed or lead nowhere, and the others
are as they were. -/
structure Without (service : Text) (kept : RcEntry → Bool) (etc etc' : Etc) : Prop where
  entries : ∀ l, etc'.entries l = (etc.entries l).filter kept
  other : ∀ l, ∀ e ∈ etc.entries l, e.isScript = true → e.service ≠ service →
    kept e = true ∧ etc'.isFile e = etc.isFile e
  gone : ∀ l, ∀ e ∈ etc.entries l, e.isScript = true → e.service = service →
    kept e = false ∨ etc'.isFile e = false

variable {etc etc' : Etc} {service : Text} {kept : RcEntry → Bool} {l : Level} {previous : Option Level} {e : RcEntry}

theorem entries_removeLinks (service : Text) (etc : Etc) (l : Level) : (removeLinks service etc).entries l =
    (etc.entries l).filter (fun e => !(matchesService service e.name && e.target.isSome)) := by
  simp only [Etc.entries, removeLinks]
  cases etc.rcd l <;> rfl

theorem isFile_removeScript (service : Text) (etc : Etc) (e : RcEntry) :
    (removeScript service etc).isFile e = (etc.isFile e && e.target ≠ some service) := by
  rw [Etc.isFile, Etc.isFile, removeScript]
  cases e.target with
  | none => rfl
  | some t => simp

theorem service_of_target {t : Text} (h : e.target = some t) : e.service = t := by
  rw [RcEntry.service, h]
  rfl

theorem removeScript_without (h : etc.Linked) (service : Text) :
    Without service (fun _ => true) etc (removeScript service etc) := by
  have hscript : ∀ l, ∀ e ∈ etc.entries l, e.isScript = true → e.target = some e.service := by
    intro l e he hscript
    obtain ⟨_, _, _, t, -, -, -, htarget⟩ := h l e he hscript
    rw [htarget, service_of_target htarget]
  refine ⟨fun l => (List.filter_eq_self.mpr (fun _ _ => rfl)).symm, fun l e he hs hne => ⟨rfl, ?_⟩,
    fun l e he hs heq => .inr ?_⟩
  · rw [isFile_removeScript, hscript l e he hs]
    simp [hne]
  · rw [isFile_removeScript, hscript l e he hs, heq]
    simp

theorem matchesService_linked (h : etc.Linked) (he : e ∈ etc.entries l) (hs : e.isScript = true) (service : Text) :
    (matchesService service e.name && e.target.isSome) = decide (e.service = service) := by
  obtain ⟨kind, a, b, t, hname, -, -, htarget⟩ := h l e he hs
  have hkind : kind = 'S' ∨ kind = 'K' := by
    rw [RcEntry.isScript, hname] at hs
    simpa using hs
  rw [hname, htarget, service_of_target htarget, matchesService]
  simp [hkind]

theorem removeLinks_without (h : etc.Linked) (service : Text) :
    Without service (fun e => !(matchesService service e.name && e.target.isSome)) etc (removeLinks service etc) := by
  refine ⟨entries_removeLinks service etc, fun l e he hs hne => ⟨?_, rfl⟩, fun l e he hs heq => .inl ?_⟩
  · rw [matchesService_linked h he hs, decide_eq_false hne]
    rfl
  · rw [matchesService_linked h he hs, decide_eq_true heq]
    rfl

theorem disableService_without (h : etc.Linked) (service : Text) (script : Bool) :
    Without service (fun e => !(matchesService service e.name && e.target.isSome)) etc
      (disableService service script etc) := by
  rw [disableService]
  cases script with
  | false => exact removeLinks_without h service
  | true =>
    have hlinks := removeLinks_without h service
    refine ⟨hlinks.entries, fun l e he hs hne => ⟨(hlinks.other l e he hs hne).1, ?_⟩,
      fun l e he hs heq => .inl ?_⟩
    · exact ((removeScript_without h service).other l e he hs hne).2
    · rw [matchesService_linked h he hs, decide_eq_true heq]
      rfl

theorem Disabling.without (h : etc.Linked) (d : Disabling) : ∃ kept, Without d.name kept etc (d.apply etc) := by
  cases d with
  | service name script => exact ⟨_, disableService_without h name script⟩
  | script name => exact ⟨_, removeScript_without h name⟩

theorem Without.linked (hw : Without service kept etc etc') (h : etc.Linked) : etc'.Linked := by
  intro l e he hs
  rw [hw.entries] at he
  exact h l e (List.mem_of_mem_filter he) hs

theorem isScript_of_suffix {kind : Char} {suffix : Text} (hkind : kind = 'S' ∨ kind = 'K')
    (h : suffixAfter kind e.name = some suffix) : e.isScript = true := by
  obtain ⟨a, b, hname, -, -⟩ := suffixAfter_eq_some.mp h
  rw [RcEntry.isScript, hname]
  obtain rfl | rfl := hkind <;> rfl

theorem Without.filter (hw : Without service kept etc etc') {p p' : RcEntry → Bool}
    (hp : ∀ e, p e = true → e.isScript = true) (hp' : ∀ e, p' e = true → e.isScript = true)
    (hfile : ∀ e, p' e = true → etc'.isFile e = true)
    (hsame : ∀ e ∈ etc.entries l, e.isScript = true → e.service ≠ service → p' e = p e) :
    (etc'.entries l).filter p' = ((etc.entries l).filter p).filter (fun e => e.service ≠ service) := by
  rw [hw.entries, List.filter_filter, List.filter_filter]
  apply List.filter_congr
  intro e he
  cases hs : e.isScript with
  | false =>
    have hno : ∀ q : RcEntry → Bool, (∀ e, q e = true → e.isScript = true) → q e = false := by
      intro q hq
      apply Bool.eq_false_iff.mpr
      intro h
      rw [hq e h] at hs
      cases hs
    rw [hno p hp, hno p' hp', Bool.false_and, Bool.and_false]
  | true =>
    by_cases hservice : e.service = service
    · have hdrop : (p' e && kept e) = false := by
        apply Bool.eq_false_iff.mpr
        intro hand
        obtain ⟨hpe, hkept⟩ := Bool.and_eq_true_iff.mp hand
        obtain hk | hf := hw.gone l e he hs hservice
        · rw [hkept] at hk
          cases hk
        · rw [hfile e hpe] at hf
          cases hf
      rw [hdrop]
      simp [hservice]
    · rw [hsame e he hs hservice, (hw.other l e he hs hservice).1]
      simp [hservice]

theorem Without.named (hw : Without service kept etc etc') (h : etc.Linked) {kind : Char}
    (hkind : kind = 'S' ∨ kind = 'K')
    {suffix : Text} (hne : suffix ≠ service) (l : Level) :
    etc'.named l kind suffix = etc.named l kind suffix := by
  rw [Etc.named, Etc.named, hw.entries, List.filter_filter]
  apply List.filter_congr
  intro e he
  by_cases hs : suffixAfter kind e.name = some suffix
  · have hservice := h.service he hkind hs
    rw [(hw.other l e he (isScript_of_suffix hkind hs) (hservice ▸ hne)).1, Bool.and_true]
  · rw [decide_eq_false hs, Bool.false_and]

theorem Without.fileTest (hw : Without service kept etc etc') (h : etc.Linked) {kind : Char}
    (hkind : kind = 'S' ∨ kind = 'K')
    {suffix : Text} (hne : suffix ≠ service) (l : Level) :
    etc'.fileTest (etc'.named l kind suffix) = etc.fileTest (etc.named l kind suffix) := by
  rw [hw.named h hkind hne]
  have hfile : ∀ e ∈ etc.named l kind suffix, etc'.isFile e = etc.isFile e := by
    intro e he
    obtain ⟨hmem, hs⟩ := mem_named.mp he
    exact (hw.other l e hmem (isScript_of_suffix hkind hs) (h.service hmem hkind hs ▸ hne)).2
  generalize etc.named l kind suffix = es at hfile
  match es with
  | [] => rfl
  | [e] => exact congrArg some (hfile e (List.mem_singleton_self e))
  | _ :: _ :: _ => rfl

theorem Without.skipped (hw : Without service kept etc etc') (h : etc.Linked) (he : e ∈ etc.entries l)
    (hne : e.service ≠ service) : etc'.skipped l previous e = etc.skipped l previous e := by
  cases hsuffix : suffixAfter 'S' e.name with
  | none =>
    simp only [Etc.skipped, hsuffix]
  | some suffix =>
    have hsuffix' : suffix ≠ service := h.service he (.inl rfl) hsuffix ▸ hne
    match previous with
    | none => rfl
    | some .single => rfl
    | some (.digit p) =>
      simp only [Etc.skipped, hsuffix, hw.fileTest h (.inl rfl) hsuffix', hw.fileTest h (.inr rfl) hsuffix']

theorem Without.rc (hw : Without service kept etc etc') (h : etc.Linked) (l : Level) (previous : Option Level) :
    etc'.rc l previous = (etc.rc l previous).filter (fun c => c.entry.service ≠ service) := by
  have hstop : ∀ e : RcEntry, e.isStop = true → e.isScript = true := fun e he => by
    obtain ⟨s, hs⟩ := isStop_iff.mp he
    exact isScript_of_suffix (.inr rfl) hs
  have hstart : ∀ e : RcEntry, e.isStart = true → e.isScript = true := fun e he =>
    decide_eq_true (.inl (of_decide_eq_true he))
  have hfiles : ∀ e ∈ etc.entries l, e.isScript = true → e.service ≠ service → etc'.isFile e = etc.isFile e :=
    fun e he hs hne => (hw.other l e he hs hne).2
  rw [Etc.rc, Etc.rc, List.filter_append]
  congr 1
  · rw [Etc.kills, Etc.kills]
    split_ifs
    · rfl
    · rw [List.filter_map]
      congr 1
      apply hw.filter
      · exact fun e he => hstop e (Bool.and_eq_true_iff.mp he).1
      · exact fun e he => hstop e (Bool.and_eq_true_iff.mp he).1
      · exact fun e he => (Bool.and_eq_true_iff.mp he).2
      · intro e he hs hne
        rw [hfiles e he hs hne]
  · rw [Etc.starts, Etc.starts, List.filter_map]
    congr 1
    have hsplit : ∀ (etc : Etc) (e : RcEntry), (e.isStart && etc.isFile e && !etc.skipped l previous e) = true →
        e.isStart = true ∧ etc.isFile e = true := by
      intro etc e he
      exact Bool.and_eq_true_iff.mp (Bool.and_eq_true_iff.mp he).1
    apply hw.filter
    · exact fun e he => hstart e (hsplit etc e he).1
    · exact fun e he => hstart e (hsplit etc' e he).1
    · exact fun e he => (hsplit etc' e he).2
    · intro e he hs hne
      rw [hfiles e he hs hne, hw.skipped h he hne]

theorem disabled_rc (etc : Etc) (h : etc.Linked) (l : Level) (previous : Option Level) :
    (disableMvlinuxServices etc).rc l previous =
      (etc.rc l previous).filter (fun c => c.entry.service ∉ disabled.map Disabling.name) := by
  have hrun : ∀ (ds : List Disabling) (etc : Etc), etc.Linked →
      (ds.foldl Disabling.apply etc).rc l previous =
        (etc.rc l previous).filter (fun c => c.entry.service ∉ ds.map Disabling.name) := by
    intro ds
    induction ds with
    | nil => exact fun etc _ => (List.filter_eq_self.mpr (fun c _ => by simp)).symm
    | cons d ds ih =>
      intro etc h
      obtain ⟨kept, hw⟩ := Disabling.without h d
      rw [List.foldl_cons, ih _ (hw.linked h), hw.rc h, List.filter_filter]
      apply List.filter_congr
      intro c _
      rw [List.map_cons, Bool.and_comm]
      simp [not_or]
  exact hrun disabled etc h

def udevLevel : Etc where
  initd := ["udev".toList, ssh]
  rcd
    | .single => some [link "S" "20" "udev".toList, link "S" "30" ssh]
    | _ => none

theorem udevLevel_linked : udevLevel.Linked := by
  intro l e he _
  simp only [Etc.entries, udevLevel] at he
  split at he
  · simp only [Option.getD_some, List.mem_cons, List.not_mem_nil, or_false] at he
    obtain rfl | rfl := he
    · exact link_linked (.inl rfl) (.inl rfl) _
    · exact link_linked (.inl rfl) (.inr rfl) _
  · cases he

theorem udev_not_started : (disableMvlinuxServices udevLevel).rc .single none =
    (udevLevel.rc .single none).filter (fun c => c.entry.service ∉ disabled.map Disabling.name) :=
  disabled_rc udevLevel udevLevel_linked .single none

end CgxLayer.Lxc

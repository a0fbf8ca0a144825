import CgxLayer.Text

namespace CgxLayer.Sysvinit

open Text

inductive Level where
  | single
  | digit (n : Fin 10)
deriving DecidableEq

def Level.halting (l : Level) : Bool := l = .digit 0 ∨ l = .digit 6

/-- What lies in an rc directory: a link to a script in /etc/init.d, or a script of its own. -/
structure RcEntry where
  name : Text
  target : Option Text
deriving DecidableEq

structure Etc where
  initd : List Text
  rcd : Level → Option (List RcEntry)

def Etc.entries (etc : Etc) (l : Level) : List RcEntry := (etc.rcd l).getD []

def Etc.isFile (etc : Etc) (e : RcEntry) : Bool :=
  match e.target with
  | none => true
  | some t => t ∈ etc.initd

-- what follows `S[0-9][0-9]` or `K[0-9][0-9]` in a name
def suffixAfter (kind : Char) : Text → Option Text
  | c :: a :: b :: s => if c = kind ∧ a.isDigit = true ∧ b.isDigit = true then some s else none
  | _ => none

def RcEntry.isStart (e : RcEntry) : Bool := e.name.head? = some 'S'

def RcEntry.isScript (e : RcEntry) : Bool := e.name.head? = some 'S' ∨ e.name.head? = some 'K'

def RcEntry.isStop (e : RcEntry) : Bool := (suffixAfter 'K' e.name).isSome

-- `[ -f p ]` for an unquoted pattern, which is an error when it matches more than one name.
def Etc.fileTest (etc : Etc) : List RcEntry → Option Bool
  | [] => some false
  | [e] => some (etc.isFile e)
  | _ => none

def Etc.named (etc : Etc) (l : Level) (kind : Char) (suffix : Text) : List RcEntry :=
  (etc.entries l).filter (fun e => suffixAfter kind e.name = some suffix)

/-- The service need not be started again: it has a start script in the previous level and no stop
script in this one. -/
def Etc.skipped (etc : Etc) (level : Level) (previous : Option Level) (e : RcEntry) : Bool :=
  match previous, suffixAfter 'S' e.name with
  | some (.digit p), some suffix =>
    etc.fileTest (etc.named (.digit p) 'S' suffix) = some true ∧ etc.fileTest (etc.named level 'K' suffix) = some false
  | _, _ => false

inductive Action where
  | start
  | stop
deriving DecidableEq

structure Call where
  entry : RcEntry
  action : Action
deriving DecidableEq

def Etc.kills (etc : Etc) (level : Level) (previous : Option Level) : List Call :=
  if previous = none then []
  else ((etc.entries level).filter (fun e => e.isStop && etc.isFile e)).map (fun e => ⟨e, .stop⟩)

def Etc.starts (etc : Etc) (level : Level) (previous : Option Level) : List Call :=
  ((etc.entries level).filter (fun e => e.isStart && etc.isFile e && !etc.skipped level previous e)).map
    (fun e => ⟨e, if level.halting then .stop else .start⟩)

/-- The scripts that `rc` runs, in order; `previous` is `none` for N. -/
def Etc.rc (etc : Etc) (level : Level) (previous : Option Level) : List Call :=
  etc.kills level previous ++ etc.starts level previous

abbrev Services := Text → Bool

def RcEntry.service (e : RcEntry) : Text := e.target.getD e.name

def Call.apply (R : Services) (c : Call) : Services :=
  fun t => if t = c.entry.service then c.action = .start else R t

structure Machine where
  current : Option Level
  services : Services

def change (etc : Etc) (m : Machine) (level : Level) : Machine :=
  ⟨some level, (etc.rc level m.current).foldl Call.apply m.services⟩

def Etc.wanted (etc : Etc) (l : Level) : Services :=
  fun t => (etc.entries l).any (fun e => e.isStart && etc.isFile e && e.service = t)

def Etc.unwanted (etc : Etc) (l : Level) : Services :=
  fun t => (etc.entries l).any (fun e => e.isStop && etc.isFile e && e.service = t)

/-- The purpose of a change: the level's services run, and of the others those that ran and are not
to be stopped. -/
def settle (etc : Etc) (m : Machine) (level : Level) : Machine :=
  ⟨some level, fun t => etc.wanted level t || (m.services t && !(m.current.isSome && etc.unwanted level t))⟩

def Etc.Linked (etc : Etc) : Prop :=
  ∀ l, ∀ e ∈ etc.entries l, e.isScript = true →
    ∃ kind a b t, e.name = kind :: a :: b :: t ∧ a.isDigit = true ∧ b.isDigit = true ∧ e.target = some t

variable {etc : Etc} {l : Level} {e : RcEntry} {t suffix : Text} {kind : Char}

theorem suffixAfter_eq_some {name : Text} : suffixAfter kind name = some suffix ↔
    ∃ a b, name = kind :: a :: b :: suffix ∧ a.isDigit = true ∧ b.isDigit = true := by
  constructor
  · intro h
    unfold suffixAfter at h
    split at h
    · split_ifs at h with hif
      obtain ⟨rfl, ha, hb⟩ := hif
      cases h
      exact ⟨_, _, rfl, ha, hb⟩
    · cases h
  · rintro ⟨a, b, rfl, ha, hb⟩
    exact if_pos ⟨rfl, ha, hb⟩

theorem mem_named : e ∈ etc.named l kind suffix ↔ e ∈ etc.entries l ∧ suffixAfter kind e.name = some suffix := by
  rw [Etc.named, List.mem_filter, decide_eq_true_iff]

theorem isStart_of_suffix (h : suffixAfter 'S' e.name = some suffix) : e.isStart = true := by
  obtain ⟨a, b, hname, -, -⟩ := suffixAfter_eq_some.mp h
  rw [RcEntry.isStart, hname]
  rfl

theorem isStop_iff : e.isStop = true ↔ ∃ s, suffixAfter 'K' e.name = some s := Option.isSome_iff_exists

theorem Etc.Linked.target (h : etc.Linked) (he : e ∈ etc.entries l) (hkind : kind = 'S' ∨ kind = 'K')
    (hs : suffixAfter kind e.name = some suffix) : e.target = some suffix := by
  obtain ⟨a, b, hname, -, -⟩ := suffixAfter_eq_some.mp hs
  have hscript : e.isScript = true := by
    rw [RcEntry.isScript, hname]
    obtain rfl | rfl := hkind <;> rfl
  obtain ⟨kind', a', b', s, hname', -, -, htarget⟩ := h l e he hscript
  rw [hname] at hname'
  obtain ⟨-, htail⟩ := List.cons.inj hname'
  obtain ⟨-, htail⟩ := List.cons.inj htail
  obtain ⟨-, rfl⟩ := List.cons.inj htail
  exact htarget

theorem Etc.Linked.service (h : etc.Linked) (he : e ∈ etc.entries l) (hkind : kind = 'S' ∨ kind = 'K')
    (hs : suffixAfter kind e.name = some suffix) : e.service = suffix := by
  rw [RcEntry.service, h.target he hkind hs]
  rfl

theorem fileTest_eq_true {es : List RcEntry} (h : etc.fileTest es = some true) : ∃ e ∈ es, etc.isFile e = true := by
  match es with
  | [] => cases h
  | [e] => exact ⟨e, List.mem_singleton_self e, Option.some.inj h⟩
  | _ :: _ :: _ => cases h

theorem fileTest_eq_false {es : List RcEntry} (h : etc.fileTest es = some false) :
    ∀ e ∈ es, etc.isFile e = false := by
  match es with
  | [] => exact fun e he => absurd he List.not_mem_nil
  | [e] =>
    intro e' he'
    rw [List.mem_singleton.mp he']
    exact Option.some.inj h
  | _ :: _ :: _ => cases h

theorem wanted_iff : etc.wanted l t = true ↔
    ∃ e ∈ etc.entries l, e.isStart = true ∧ etc.isFile e = true ∧ e.service = t := by
  simp [Etc.wanted, and_assoc]

theorem unwanted_iff : etc.unwanted l t = true ↔
    ∃ e ∈ etc.entries l, e.isStop = true ∧ etc.isFile e = true ∧ e.service = t := by
  simp [Etc.unwanted, and_assoc]

theorem foldl_stop (es : List RcEntry) (R : Services) (t : Text) :
    (es.map (fun e => (⟨e, .stop⟩ : Call))).foldl Call.apply R t = (R t && !es.any (fun e => e.service = t)) := by
  induction es generalizing R with
  | nil => simp
  | cons e es ih =>
    rw [List.map_cons, List.foldl_cons, ih, Call.apply, List.any_cons]
    by_cases ht : t = e.service
    · simp [ht]
    · simp [ht, Ne.symm ht]

theorem foldl_start (es : List RcEntry) (R : Services) (t : Text) :
    (es.map (fun e => (⟨e, .start⟩ : Call))).foldl Call.apply R t = (R t || es.any (fun e => e.service = t)) := by
  induction es generalizing R with
  | nil => simp
  | cons e es ih =>
    rw [List.map_cons, List.foldl_cons, ih, Call.apply, List.any_cons]
    by_cases ht : t = e.service
    · simp [ht]
    · simp [ht, Ne.symm ht]

theorem foldl_kills (etc : Etc) (level : Level) (previous : Option Level) (R : Services) (t : Text) :
    (etc.kills level previous).foldl Call.apply R t = (R t && !(previous.isSome && etc.unwanted level t)) := by
  rw [Etc.kills]
  cases previous with
  | none => simp
  | some p =>
    rw [if_neg (Option.some_ne_none p), foldl_stop, List.any_filter, Option.isSome_some, Bool.true_and, Etc.unwanted]

theorem running_of_skipped (h : etc.Linked) {m : Machine}
    (hm : ∀ l, m.current = some l → ∀ t, etc.wanted l t = true → m.services t = true) (he : e ∈ etc.entries l)
    (hskip : etc.skipped l m.current e = true) : m.services e.service = true ∧ etc.unwanted l e.service = false := by
  unfold Etc.skipped at hskip
  split at hskip
  · rename_i p suffix hcurrent hsuffix
    obtain ⟨hstarted, hkept⟩ := of_decide_eq_true hskip
    have hservice := h.service he (.inl rfl) hsuffix
    constructor
    · obtain ⟨e', he', hfile⟩ := fileTest_eq_true hstarted
      obtain ⟨hmem, hsuffix'⟩ := mem_named.mp he'
      apply hm _ hcurrent
      rw [hservice]
      exact wanted_iff.mpr ⟨e', hmem, isStart_of_suffix hsuffix', hfile, h.service hmem (.inl rfl) hsuffix'⟩
    · apply Bool.eq_false_iff.mpr
      intro hunwanted
      obtain ⟨k, hk, hstop, hfile, hks⟩ := unwanted_iff.mp hunwanted
      obtain ⟨s, hs⟩ := isStop_iff.mp hstop
      rw [h.service hk (.inr rfl) hs, hservice] at hks
      have hdead := fileTest_eq_false hkept k (mem_named.mpr ⟨hk, hks ▸ hs⟩)
      rw [hfile] at hdead
      cases hdead
  · cases hskip

theorem change_eq_settle (h : etc.Linked) {m : Machine}
    (hm : ∀ l, m.current = some l → ∀ t, etc.wanted l t = true → m.services t = true) (hl : l.halting = false) :
    change etc m l = settle etc m l := by
  have hservices : (etc.rc l m.current).foldl Call.apply m.services = (settle etc m l).services := by
    funext t
    rw [Etc.rc, List.foldl_append, Etc.starts, hl, if_neg Bool.false_ne_true, foldl_start, foldl_kills,
      List.any_filter, settle]
    dsimp only
    rw [Bool.or_comm]
    apply Bool.eq_iff_iff.mpr
    simp only [Bool.or_eq_true]
    constructor
    · rintro (hstart | hkept)
      · left
        obtain ⟨e, he, hand⟩ := List.any_eq_true.mp hstart
        simp only [Bool.and_eq_true, decide_eq_true_eq] at hand
        exact wanted_iff.mpr ⟨e, he, hand.1.1.1, hand.1.1.2, hand.2⟩
      · exact .inr hkept
    · rintro (hwanted | hkept)
      · obtain ⟨e, he, hstart, hfile, rfl⟩ := wanted_iff.mp hwanted
        cases hskip : etc.skipped l m.current e with
        | false =>
          left
          apply List.any_eq_true.mpr
          exact ⟨e, he, by simp [hstart, hfile, hskip]⟩
        | true =>
          right
          obtain ⟨hrunning, hkept⟩ := running_of_skipped h hm he hskip
          simp [hrunning, hkept]
      · exact .inr hkept
  rw [change, hservices]
  rfl

theorem settle_wanted (m : Machine) (l l' : Level) (hl' : (settle etc m l).current = some l') (t : Text)
    (ht : etc.wanted l' t = true) : (settle etc m l).services t = true := by
  obtain rfl : l = l' := Option.some.inj hl'
  simp [settle, ht]

theorem rc_run_settles (etc : Etc) (h : etc.Linked) (R : Services) (ls : List Level)
    (hls : ∀ l ∈ ls, l.halting = false) : ls.foldl (change etc) ⟨none, R⟩ = ls.foldl (settle etc) ⟨none, R⟩ := by
  have hrun : ∀ m : Machine, (∀ l, m.current = some l → ∀ t, etc.wanted l t = true → m.services t = true) →
      ls.foldl (change etc) m = ls.foldl (settle etc) m := by
    induction ls with
    | nil => exact fun m _ => rfl
    | cons l ls ih =>
      intro m hm
      obtain ⟨hl, hls⟩ := List.forall_mem_cons.mp hls
      rw [List.foldl_cons, List.foldl_cons, change_eq_settle h hm hl]
      exact ih hls _ (fun l' hl' t ht => settle_wanted m l l' hl' t ht)
  exact hrun _ (fun l hl => by cases hl)

def ssh : Text := "ssh".toList

def cron : Text := "cron".toList

def link (kind number : String) (script : Text) : RcEntry :=
  ⟨kind.toList ++ (number.toList ++ script), some script⟩

def twoLevels : Etc where
  initd := [ssh, cron]
  rcd
    | .digit 2 => some [link "S" "20" ssh, link "S" "30" cron]
    | .digit 3 => some [link "K" "30" cron, link "S" "20" ssh]
    | _ => none

theorem link_linked {k n : String} (hk : k = "S" ∨ k = "K") (hn : n = "20" ∨ n = "30") (script : Text) :
    ∃ kind a b t, (link k n script).name = kind :: a :: b :: t ∧ a.isDigit = true ∧ b.isDigit = true ∧
      (link k n script).target = some t := by
  obtain rfl | rfl := hk <;> obtain rfl | rfl := hn <;> exact ⟨_, _, _, script, rfl, by decide, by decide, rfl⟩

theorem twoLevels_linked : twoLevels.Linked := by
  intro l e he _
  simp only [Etc.entries, twoLevels] at he
  split at he
  · simp only [Option.getD_some, List.mem_cons, List.not_mem_nil, or_false] at he
    obtain rfl | rfl := he
    · exact link_linked (.inl rfl) (.inl rfl) ssh
    · exact link_linked (.inl rfl) (.inr rfl) cron
  · simp only [Option.getD_some, List.mem_cons, List.not_mem_nil, or_false] at he
    obtain rfl | rfl := he
    · exact link_linked (.inr rfl) (.inr rfl) cron
    · exact link_linked (.inl rfl) (.inl rfl) ssh
  · cases he

theorem back_and_forth : [.single, .digit 2, .digit 3, .digit 2].foldl (change twoLevels) ⟨none, fun _ => false⟩ =
    [.single, .digit 2, .digit 3, .digit 2].foldl (settle twoLevels) ⟨none, fun _ => false⟩ :=
  rc_run_settles twoLevels twoLevels_linked _ _ (by decide)

end CgxLayer.Sysvinit

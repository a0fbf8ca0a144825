import CgxLayer.LastOf
import CgxLayer.TextFile
import CgxLayer.Installer.SerialConsole

namespace CgxLayer.Installer

open Text

structure KernelCmdline where
  line : Text
  oneLine : '\n' ∉ line

def serialKey : Text := "console=ttyS".toList

def ttySChar (c : Char) : Bool := c.isDigit || c == '*'

-- `sed 's/^.*console=\(ttyS[0-9*]*\).*$/\1/'`, of what it takes after `ttyS`
def serialUnit (s : Text) : Option Text := (lastAfter serialKey s).map (List.takeWhile ttySChar)

/-- The terminal that `mktmpwrite` starts the installer on. -/
def installerTty (c : KernelCmdline) : Text :=
  if serialKey <:+: c.line then
    match serialUnit c.line with
    | none => c.line
    | some unit => ttyS ++ unit
  else "tty1".toList

def consoleKey : Text := "console=".toList

def consoleValue (w : Text) : Option Text := if startsWith consoleKey w then some (w.drop 8) else none

/-- `console` and `serparms` of `install`. -/
structure Consoles where
  console : Option Text
  serparms : Option SerialParms

def consoleWord (isdigit : IsDigit) (s : Consoles) (w : Text) : Consoles :=
  if startsWith consoleKey w then ⟨some w, getSerialParms isdigit (w.drop 8)⟩ else s

def consoles (isdigit : IsDigit) (c : KernelCmdline) : Consoles :=
  (words pyBlank c.line).foldl (consoleWord isdigit) ⟨none, none⟩

def endedLines : Text → List Text
  | [] => []
  | c :: s =>
    if c = '\n' then ['\n'] :: endedLines s
    else
      match endedLines s with
      | [] => [[c]]
      | l :: ls => (c :: l) :: ls

def gettyName : Text := "getty".toList

def serialGetty (p : SerialParms) : Text :=
  's' :: (p.unit ++ (":2345:respawn:/sbin/getty ttyS".toList ++ (p.unit ++ ' ' :: (p.speed ++ " vt100".toList))))

def virtualGetty (i : ℕ) : Text :=
  't' :: (decimal i ++ (":2345:respawn:/sbin/getty tty".toList ++ (decimal i ++ " 38400 linux".toList)))

def gettyLines : Option SerialParms → List Text
  | some parms => [serialGetty parms]
  | none => [1, 2, 3, 4].map virtualGetty

def keptLines (inittab : Text) : List Text :=
  (endedLines (universalNewlines inittab)).takeWhile (fun l => decide (¬ gettyName <:+: l))

def setInittab (parms : Option SerialParms) (inittab : Text) : Text :=
  (keptLines inittab).flatten ++ unlines (gettyLines parms)

structure TargetConsole where
  grubDir : Bool
  grubDefault : Option Text
  grubSerial : Option Text
  inittab : Text

def grubCmdline (console : Text) : Text :=
  "\nGRUB_CMDLINE_LINUX='".toList ++ (console ++ "'\n".toList)

def setConsole (isdigit : IsDigit) (cmdline : KernelCmdline) (t : TargetConsole) : TargetConsole :=
  let c := consoles isdigit cmdline
  let t :=
    match c.console with
    | none => t
    | some console =>
      if t.grubDir then
        { t with grubDefault := some (grubCmdline console), grubSerial := (setGrubSerial c.serparms).or t.grubSerial }
      else t
  { t with inittab := setInittab c.serparms t.inittab }

/-- The terminal of an entry of the inittab that keeps a getty running. -/
def gettyOf (l : Text) : Option Text :=
  (splitFirst ':' l).bind (fun id => (splitFirst ':' id.2).bind (fun runlevels =>
    (splitFirst ':' runlevels.2).bind (fun action =>
      match words shBlank action.2 with
      | program :: tty :: _ =>
        if action.1 = "respawn".toList ∧ program = "/sbin/getty".toList then some tty else none
      | _ => none)))

def gettys (inittab : Text) : List Text := (endedLines inittab).filterMap gettyOf

def SerialWord (w : Text) : Prop :=
  serialKey <:+: w → ∃ unit rest, w = consoleKey ++ (ttyS ++ (unit.map Subtype.val ++ rest)) ∧
    NamesPort (ttyS ++ (unit.map Subtype.val ++ rest)) unit rest ∧ ¬ serialKey <:+: rest

theorem ttySChar_of_pyBlank {c : Char} (hc : pyBlank c = true) : ttySChar c = false := by
  cases h : ttySChar c with
  | false => rfl
  | true =>
    rw [ttySChar, Bool.or_eq_true_iff, beq_iff_eq] at h
    obtain hdigit | rfl := h
    · have hrange := toNat_of_isDigit hdigit
      rw [pyBlank_of_printable (by omega) (by omega)] at hc
      cases hc
    · cases hc

theorem pyBlank_serialKey {c : Char} (hc : pyBlank c = true) : c ∉ serialKey := by
  have hkey : ∀ d ∈ serialKey, pyBlank d = false := by decide
  intro hmem
  rw [hkey c hmem] at hc
  cases hc

theorem serialKey_ne : serialKey ≠ [] := by decide

theorem serialUnit_append_cons {c : Char} (hc : pyBlank c = true) (a b : Text) :
    serialUnit (a ++ c :: b) = (serialUnit b).or (serialUnit a) := by
  rw [serialUnit, serialUnit, serialUnit, lastAfter_append_cons serialKey_ne (pyBlank_serialKey hc),
    Option.map_or, Option.map_map]
  congr 2
  funext r
  exact takeWhile_append_cons (ttySChar_of_pyBlank hc) r b

/-- The greedy match finds what the last of the words with a serial console has. -/
theorem serialUnit_words (s : Text) : serialUnit s = lastOf serialUnit (words pyBlank s) := by
  induction hn : s.length using Nat.strong_induction_on generalizing s with
  | _ n ih =>
    by_cases hblank : ∃ c ∈ s, pyBlank c = true
    · obtain ⟨c, hmem, hc⟩ := hblank
      obtain ⟨a, b, rfl⟩ := List.append_of_mem hmem
      rw [List.length_append, List.length_cons] at hn
      rw [serialUnit_append_cons hc, words_append_blank a b hc, lastOf_append,
        ih a.length (by omega) a rfl, ih b.length (by omega) b rfl]
    · have hword : ∀ c ∈ s, pyBlank c = false := by
        intro c hc
        exact Bool.eq_false_of_not_eq_true (fun h => hblank ⟨c, hc, h⟩)
      cases s with
      | nil =>
        rw [words_nil]
        rfl
      | cons c s =>
        rw [words_word ⟨List.cons_ne_nil c s, hword⟩]
        exact (lastOf_concat serialUnit [] (c :: s)).symm ▸ (Option.or_none).symm

theorem serialUnit_port {unit : List Digit} {rest : Text}
    (hports : NamesPort (ttyS ++ (unit.map Subtype.val ++ rest)) unit rest)
    (hrest : ¬ serialKey <:+: rest) :
    serialUnit (consoleKey ++ (ttyS ++ (unit.map Subtype.val ++ rest))) = some (unit.map Subtype.val) := by
  have hkey : consoleKey ++ (ttyS ++ (unit.map Subtype.val ++ rest)) =
      'c' :: ("onsole=ttyS".toList ++ (unit.map Subtype.val ++ rest)) := rfl
  have hdigits : ∀ c ∈ unit.map Subtype.val, c.isDigit = true := by
    intro c hc
    obtain ⟨d, -, rfl⟩ := List.mem_map.mp hc
    exact d.2
  have hskip : 'c' ∉ "onsole=ttyS".toList ++ unit.map Subtype.val := by
    rw [List.mem_append, not_or]
    exact ⟨by decide, fun hc => absurd (hdigits 'c' hc) (by decide)⟩
  have hnone : lastAfter serialKey ("onsole=ttyS".toList ++ (unit.map Subtype.val ++ rest)) = none := by
    rw [← List.append_assoc]
    exact (lastAfter_skip hskip rest).trans (lastAfter_eq_none.mpr hrest)
  have hstart : serialKey <+: 'c' :: ("onsole=ttyS".toList ++ (unit.map Subtype.val ++ rest)) :=
    ⟨unit.map Subtype.val ++ rest, rfl⟩
  have hdrop : ('c' :: ("onsole=ttyS".toList ++ (unit.map Subtype.val ++ rest))).drop serialKey.length =
      unit.map Subtype.val ++ rest := rfl
  have hunit : ∀ c ∈ unit.map Subtype.val, ttySChar c = true := by
    intro c hc
    rw [ttySChar, hdigits c hc, Bool.true_or]
  have hends : rest.takeWhile ttySChar = [] := by
    cases hr : rest with
    | nil => rfl
    | cons c r =>
      obtain rfl := hports.ends c (by rw [hr]; rfl)
      rfl
  rw [hkey, serialUnit, lastAfter, hnone, if_pos hstart, hdrop, Option.none_or, Option.map_some,
    List.takeWhile_append_of_pos hunit, hends, List.append_nil]

theorem getSerialParms_port_unit (isdigit : IsDigit) {unit : List Digit} {rest : Text}
    (hports : NamesPort (ttyS ++ (unit.map Subtype.val ++ rest)) unit rest) :
    ∃ p, getSerialParms isdigit (ttyS ++ (unit.map Subtype.val ++ rest)) = some p ∧ p.unit = unit.map Subtype.val := by
  cases hr : rest with
  | nil => exact ⟨_, getSerialParms_bare isdigit unit, rfl⟩
  | cons c r =>
    obtain rfl := hports.ends c (by rw [hr]; rfl)
    have hsplit : (ttyS ++ (unit.map Subtype.val ++ ',' :: r)).splitOn ',' =
        (ttyS ++ unit.map Subtype.val) :: r.splitOn ',' := by
      rw [← List.append_assoc, List.splitOn_append_cons_self_of_not_mem (comma_not_mem_unit unit)]
    obtain ⟨w, ws, hw⟩ := List.exists_cons_of_ne_nil (List.splitOn_ne_nil ',' r)
    rw [getSerialParms, startsWith_ttyS, hsplit, hw]
    exact ⟨_, rfl, rfl⟩

theorem endedLines_line {b : Text} (hb : '\n' ∉ b) (s : Text) :
    endedLines (b ++ '\n' :: s) = (b ++ ['\n']) :: endedLines s := by
  induction b with
  | nil => rfl
  | cons c b ih =>
    have hc : c ≠ '\n' := fun h => hb (h ▸ List.mem_cons_self ..)
    rw [List.cons_append, endedLines, if_neg hc, ih (fun h => hb (List.mem_cons_of_mem _ h)), List.cons_append]

def Ended (l : Text) : Prop := ∃ b, l = b ++ ['\n'] ∧ '\n' ∉ b

theorem endedLines_flatten {ls : List Text} (h : ∀ l ∈ ls, Ended l) (s : Text) :
    endedLines (ls.flatten ++ s) = ls ++ endedLines s := by
  induction ls with
  | nil => rfl
  | cons l ls ih =>
    obtain ⟨b, rfl, hb⟩ := h l (List.mem_cons_self ..)
    rw [List.flatten_cons, List.append_assoc, List.append_assoc, List.singleton_append, endedLines_line hb,
      ih (fun l hl => h l (List.mem_cons_of_mem _ hl)), List.cons_append]

theorem ended_of_newline (a : Text) : ∀ l ∈ endedLines (a ++ ['\n']), Ended l := by
  induction a with
  | nil =>
    intro l hl
    exact ⟨[], List.mem_singleton.mp hl, List.not_mem_nil⟩
  | cons c a ih =>
    rw [List.cons_append, endedLines]
    split_ifs with hc
    · exact List.forall_mem_cons.mpr ⟨⟨[], rfl, List.not_mem_nil⟩, ih⟩
    · cases hls : endedLines (a ++ ['\n']) with
      | nil =>
        cases a with
        | nil => cases hls
        | cons d a =>
          rw [List.cons_append, endedLines] at hls
          split_ifs at hls
          split at hls <;> cases hls
      | cons l ls =>
        rw [hls] at ih
        obtain ⟨b, rfl, hb⟩ := ih l (List.mem_cons_self ..)
        refine List.forall_mem_cons.mpr ⟨⟨c :: b, rfl, ?_⟩, fun l hl => ih l (List.mem_cons_of_mem _ hl)⟩
        rw [List.mem_cons, not_or]
        exact ⟨fun h => hc h.symm, hb⟩

theorem ended_keptLines {inittab : Text} (h : Terminated inittab) : ∀ l ∈ keptLines inittab, Ended l := by
  intro l hl
  have hmem : l ∈ endedLines (universalNewlines inittab) := (List.takeWhile_sublist _).subset hl
  obtain rfl | ⟨a, rfl⟩ := h
  · cases hmem
  · obtain ⟨u, hu⟩ := universalNewlines_terminated a
    rw [hu] at hmem
    exact ended_of_newline u l hmem

theorem infix_of_mem_words {blank : Char → Bool} {w s : Text} (h : w ∈ words blank s) : w <:+: s := by
  induction hn : s.length using Nat.strong_induction_on generalizing s with
  | _ n ih =>
    by_cases hblank : ∃ c ∈ s, blank c = true
    · obtain ⟨c, hmem, hc⟩ := hblank
      obtain ⟨a, b, rfl⟩ := List.append_of_mem hmem
      rw [List.length_append, List.length_cons] at hn
      rw [words_append_blank a b hc] at h
      obtain h | h := List.mem_append.mp h
      · exact (ih a.length (by omega) h rfl).trans (List.prefix_append a _).isInfix
      · exact (ih b.length (by omega) h rfl).trans ((List.suffix_cons c b).trans (List.suffix_append a _)).isInfix
    · have hword : ∀ c ∈ s, blank c = false := by
        intro c hc
        exact Bool.eq_false_of_not_eq_true (fun h => hblank ⟨c, hc, h⟩)
      cases s with
      | nil =>
        rw [words_nil] at h
        cases h
      | cons c s =>
        rw [words_word ⟨List.cons_ne_nil c s, hword⟩, List.mem_singleton] at h
        rw [h]

theorem splitFirst_suffix {sep : Char} {s a b : Text} (h : splitFirst sep s = some (a, b)) : b <:+ s := by
  induction s generalizing a with
  | nil => cases h
  | cons c s ih =>
    rw [splitFirst] at h
    split_ifs at h
    · cases h
      exact List.suffix_cons c _
    · obtain ⟨⟨a', b'⟩, hsplit, hcut⟩ := Option.map_eq_some_iff.mp h
      cases hcut
      exact (ih hsplit).trans (List.suffix_cons c s)

theorem gettyOf_of_not_infix {l : Text} (h : ¬ gettyName <:+: l) : gettyOf l = none := by
  cases hgetty : gettyOf l with
  | none => rfl
  | some tty =>
    obtain ⟨⟨id, l₁⟩, hid, hgetty⟩ := Option.bind_eq_some_iff.mp hgetty
    obtain ⟨⟨runlevels, l₂⟩, hrunlevels, hgetty⟩ := Option.bind_eq_some_iff.mp hgetty
    obtain ⟨⟨action, process⟩, haction, hgetty⟩ := Option.bind_eq_some_iff.mp hgetty
    dsimp only at hgetty
    split at hgetty
    · rename_i program tty' rest hwords
      split_ifs at hgetty with hrespawn
      have hmem : "/sbin/getty".toList ∈ words shBlank process := by
        rw [hwords, hrespawn.2]
        exact List.mem_cons_self ..
      have hname : gettyName <:+: "/sbin/getty".toList := ⟨"/sbin/".toList, [], rfl⟩
      have hprocess : process <:+ l :=
        (splitFirst_suffix haction).trans ((splitFirst_suffix hrunlevels).trans (splitFirst_suffix hid))
      exact absurd (hname.trans ((infix_of_mem_words hmem).trans hprocess.isInfix)) h
    · cases hgetty

theorem gettyOf_serial {p : SerialParms} (hunit : ∀ c ∈ p.unit, c.isDigit = true) :
    gettyOf (serialGetty p ++ ['\n']) = some (ttyS ++ p.unit) := by
  have hcolon : ':' ∉ 's' :: p.unit := by
    rw [List.mem_cons, not_or]
    exact ⟨by decide, fun hc => absurd (hunit ':' hc) (by decide)⟩
  have htty : IsWord shBlank (ttyS ++ p.unit) := by
    refine ⟨List.cons_ne_nil _ _, List.forall_mem_append.mpr ⟨by decide, fun c hc => ?_⟩⟩
    cases hblank : shBlank c with
    | false => rfl
    | true =>
      have hdigit := hunit c hc
      rw [shBlank, Bool.or_eq_true_iff, Bool.or_eq_true_iff, beq_iff_eq, beq_iff_eq, beq_iff_eq] at hblank
      obtain (rfl | rfl) | rfl := hblank <;> cases hdigit
  have hprogram : IsWord shBlank "/sbin/getty".toList := by decide
  have hline : serialGetty p ++ ['\n'] = ('s' :: p.unit) ++ ':' :: ("2345".toList ++ ':' :: ("respawn".toList ++
      ':' :: ("/sbin/getty".toList ++ ' ' :: ((ttyS ++ p.unit) ++ ' ' :: (p.speed ++ " vt100\n".toList))))) := by
    simp [serialGetty, ttyS]
  rw [hline, gettyOf, splitFirst_append _ _ hcolon, Option.bind_some, splitFirst_append _ _ (by decide),
    Option.bind_some, splitFirst_append _ _ (by decide), Option.bind_some]
  dsimp only
  rw [words_word_blank hprogram _ rfl, words_word_blank htty _ rfl]
  rfl

def ttyNames : List Text := ["tty1".toList, "tty2".toList, "tty3".toList, "tty4".toList]

theorem newline_not_mem_digits {ds : Text} (h : ∀ c ∈ ds, c.isDigit = true) : '\n' ∉ ds :=
  fun hc => absurd (h '\n' hc) (by decide)

theorem gettys_setInittab {inittab : Text} (htab : Terminated inittab) {parms : Option SerialParms}
    (hline : ∀ l ∈ gettyLines parms, '\n' ∉ l) :
    gettys (setInittab parms inittab) = (gettyLines parms).filterMap (fun l => gettyOf (l ++ ['\n'])) := by
  have hended : ∀ l ∈ (gettyLines parms).map (fun l => l ++ ['\n']), Ended l := by
    intro l hl
    obtain ⟨b, hb, rfl⟩ := List.mem_map.mp hl
    exact ⟨b, rfl, hline b hb⟩
  have hunlines : unlines (gettyLines parms) = ((gettyLines parms).map (fun l => l ++ ['\n'])).flatten ++ [] := by
    rw [List.append_nil, unlines, List.flatMap_def]
  have hkept : (keptLines inittab).filterMap gettyOf = [] := by
    rw [List.filterMap_eq_nil_iff]
    intro l hl
    have hno := List.mem_takeWhile_imp hl
    exact gettyOf_of_not_infix (of_decide_eq_true hno)
  rw [gettys, setInittab, endedLines_flatten (ended_keptLines htab), hunlines, endedLines_flatten hended,
    List.filterMap_append, hkept, List.nil_append, endedLines, List.append_nil, List.filterMap_map]
  rfl

theorem gettys_none {inittab : Text} (htab : Terminated inittab) : gettys (setInittab none inittab) = ttyNames := by
  rw [gettys_setInittab htab (by decide)]
  decide

theorem gettys_serial {inittab : Text} (htab : Terminated inittab) {p : SerialParms}
    (hunit : ∀ c ∈ p.unit, c.isDigit = true) (hspeed : '\n' ∉ p.speed) :
    gettys (setInittab (some p) inittab) = [ttyS ++ p.unit] := by
  have hline : '\n' ∉ serialGetty p := by
    have hnewline := newline_not_mem_digits hunit
    simp [serialGetty, hnewline, hspeed]
  have hlines : ∀ l ∈ gettyLines (some p), '\n' ∉ l := by
    intro l hl
    rw [List.mem_singleton.mp hl]
    exact hline
  rw [gettys_setInittab htab hlines, gettyLines, List.filterMap_cons, gettyOf_serial hunit]
  rfl

theorem newline_not_mem_speed {isdigit : IsDigit} {v : Text} {p : SerialParms}
    (h : getSerialParms isdigit v = some p) : '\n' ∉ p.speed := by
  rw [getSerialParms] at h
  split_ifs at h
  split at h
  · cases h
  · cases h
    have hspeed : '\n' ∉ "9600".toList := by decide
    exact hspeed
  · rename_i w _ _
    have htake : w.take (w.takeWhile isdigit.test).length = w.takeWhile isdigit.test :=
      (List.prefix_iff_eq_take.mp (List.takeWhile_prefix isdigit.test)).symm
    cases h
    intro hmem
    have htest := List.mem_takeWhile_imp (htake ▸ hmem)
    rw [isdigit.ascii _ (by decide)] at htest
    cases htest

theorem serparms_consoles (isdigit : IsDigit) (c : KernelCmdline) :
    (consoles isdigit c).serparms = (lastOf consoleValue (words pyBlank c.line)).bind (getSerialParms isdigit) := by
  have hstep : ∀ s w, (consoleWord isdigit s w).serparms =
      ((consoleValue w).map (getSerialParms isdigit)).getD s.serparms := by
    intro s w
    rw [consoleWord, consoleValue]
    split_ifs <;> rfl
  rw [consoles, foldl_last hstep, lastOf_map]
  cases lastOf consoleValue (words pyBlank c.line) <;> rfl

theorem inittab_setConsole (isdigit : IsDigit) (c : KernelCmdline) (t : TargetConsole) :
    (setConsole isdigit c t).inittab = setInittab (consoles isdigit c).serparms t.inittab := by
  rw [setConsole]
  dsimp only
  cases (consoles isdigit c).console with
  | none => rfl
  | some console =>
    dsimp only
    split_ifs <;> rfl

theorem infix_of_consoleValue {w v : Text} (hw : consoleValue w = some v) (hv : startsWith ttyS v = true) :
    serialKey <:+: w := by
  rw [consoleValue] at hw
  split_ifs at hw with hkey
  obtain ⟨u, rfl⟩ := startsWith_iff.mp hkey
  cases hw
  obtain ⟨r, hr⟩ := startsWith_iff.mp hv
  refine ⟨[], r, ?_⟩
  have hdrop : (consoleKey ++ u).drop 8 = u := rfl
  rw [hdrop] at hr
  rw [← hr]
  rfl

theorem serialWord_cases {w : Text} (h : SerialWord w) :
    (¬ serialKey <:+: w ∧ serialUnit w = none) ∨
      ∃ unit rest, consoleValue w = some (ttyS ++ (unit.map Subtype.val ++ rest)) ∧
        NamesPort (ttyS ++ (unit.map Subtype.val ++ rest)) unit rest ∧ serialUnit w = some (unit.map Subtype.val) := by
  by_cases hkey : serialKey <:+: w
  · obtain ⟨unit, rest, rfl, hports, hrest⟩ := h hkey
    exact .inr ⟨unit, rest, rfl, hports, serialUnit_port hports hrest⟩
  · refine .inl ⟨hkey, ?_⟩
    rw [serialUnit, lastAfter_eq_none.mpr hkey]
    rfl

theorem serialUnit_eq_none {s : Text} : serialUnit s = none ↔ ¬ serialKey <:+: s := by
  rw [serialUnit, Option.map_eq_none_iff, lastAfter_eq_none]

theorem ttyS_not_mem_ttyNames (unit : Text) : ttyS ++ unit ∉ ttyNames := by
  intro h
  have hthird : ∀ n ∈ ttyNames, n[3]? ≠ some 'S' := by decide
  exact hthird _ h rfl

theorem namesPort_digits {unit : List Digit} {c : Char} (hc : c ∈ unit.map Subtype.val) : c.isDigit = true := by
  obtain ⟨d, -, rfl⟩ := List.mem_map.mp hc
  exact d.2

theorem terminal_has_getty (isdigit : IsDigit) (c : KernelCmdline) (t : TargetConsole)
    (hwords : ∀ w ∈ words pyBlank c.line, SerialWord w) (htab : Terminated t.inittab) :
    installerTty c ∈ gettys (setConsole isdigit c t).inittab ↔
      (∀ w ∈ words pyBlank c.line, ¬ serialKey <:+: w) ∨
        ∃ v, lastOf consoleValue (words pyBlank c.line) = some v ∧ startsWith ttyS v = true := by
  have hnoSerial : (∀ w ∈ words pyBlank c.line, ¬ serialKey <:+: w) ↔ serialUnit c.line = none := by
    rw [serialUnit_words, lastOf_eq_none]
    simp only [serialUnit_eq_none]
  rw [inittab_setConsole, serparms_consoles, hnoSerial]
  cases hvalue : lastOf consoleValue (words pyBlank c.line) with
  | none =>
    -- no word sets a console, so none has a serial one
    have hnone : serialUnit c.line = none := by
      rw [← hnoSerial]
      intro w hw
      obtain hno | ⟨unit, rest, hunit, -⟩ := serialWord_cases (hwords w hw)
      · exact hno.1
      · rw [lastOf_eq_none.mp hvalue w hw] at hunit
        cases hunit
    rw [Option.bind_none, gettys_none htab, installerTty, if_neg (serialUnit_eq_none.mp hnone)]
    exact ⟨fun _ => .inl hnone, fun _ => List.mem_cons_self ..⟩
  | some v =>
    obtain ⟨xs, w, ys, hsplit, hw, hys⟩ := lastOf_eq_some hvalue
    have hmem : w ∈ words pyBlank c.line := by
      rw [hsplit]
      exact List.mem_append_right xs (List.mem_cons_self ..)
    rw [Option.bind_some]
    cases hserial : startsWith ttyS v with
    | false =>
      rw [(getSerialParms_eq_none isdigit v).mpr hserial, gettys_none htab, installerTty]
      cases hunit : serialUnit c.line with
      | none =>
        rw [if_neg (serialUnit_eq_none.mp hunit)]
        exact ⟨fun _ => .inl rfl, fun _ => List.mem_cons_self ..⟩
      | some unit =>
        have hkey : serialKey <:+: c.line := by
          by_contra hno
          rw [serialUnit_eq_none.mpr hno] at hunit
          cases hunit
        rw [if_pos hkey]
        refine ⟨fun h => absurd h (ttyS_not_mem_ttyNames unit), ?_⟩
        rintro (hnone | ⟨v', hv', htrue⟩)
        · cases hnone
        · obtain rfl := Option.some.inj hv'
          rw [hserial] at htrue
          cases htrue
    | true =>
      have hkey := infix_of_consoleValue hw hserial
      obtain hno | ⟨unit, rest, hunit, hports, hfound⟩ := serialWord_cases (hwords w hmem)
      · exact absurd hkey hno.1
      obtain rfl := Option.some.inj (hw.symm.trans hunit)
      obtain ⟨p, hp, hpunit⟩ := getSerialParms_port_unit isdigit hports
      have hdigits : ∀ d ∈ p.unit, d.isDigit = true := by
        rw [hpunit]
        exact fun d hd => namesPort_digits hd
      -- the words after it set no console, so the script too finds the port in this one
      have hlater : ∀ y ∈ ys, serialUnit y = none := by
        intro y hy
        have hymem : y ∈ words pyBlank c.line := by
          rw [hsplit]
          exact List.mem_append_right xs (List.mem_cons_of_mem _ hy)
        obtain hnone | ⟨unit', rest', hunit', -⟩ := serialWord_cases (hwords y hymem)
        · exact hnone.2
        · rw [hys y hy] at hunit'
          cases hunit'
      have hline : serialUnit c.line = some (unit.map Subtype.val) := by
        rw [serialUnit_words, hsplit]
        exact lastOf_split hfound hlater
      have hinfix : serialKey <:+: c.line := by
        by_contra hno
        rw [serialUnit_eq_none.mpr hno] at hline
        cases hline
      rw [hp, gettys_serial htab hdigits (newline_not_mem_speed hp), installerTty, if_pos hinfix, hline, hpunit]
      exact ⟨fun _ => .inr ⟨_, rfl, hserial⟩, fun _ => List.mem_singleton_self _⟩

def serialBoot : KernelCmdline := ⟨"console=tty0 console=ttyS1,115200".toList, by decide⟩

def emptyTarget : TargetConsole := ⟨true, none, none, "id:3:initdefault:\n".toList⟩

theorem serialWord_of_not_infix {w : Text} (h : ¬ serialKey <:+: w) : SerialWord w := fun hkey => absurd hkey h

theorem serialBoot_words : ∀ w ∈ words pyBlank serialBoot.line, SerialWord w := by
  have hwords : words pyBlank serialBoot.line = ["console=tty0".toList, "console=ttyS1,115200".toList] := by decide
  rw [hwords, List.forall_mem_cons, List.forall_mem_singleton]
  refine ⟨ serialWord_of_not_infix (by decide), fun _ => ⟨[⟨'1', rfl⟩], ",115200".toList, rfl, ?_, by decide⟩⟩
  exact ⟨rfl, List.cons_ne_nil _ _, fun c hc => (Option.some.inj hc).symm⟩

theorem serial_installer_kept :
    installerTty serialBoot ∈ gettys (setConsole asciiDigit serialBoot emptyTarget).inittab := by
  apply (terminal_has_getty asciiDigit serialBoot emptyTarget serialBoot_words
    (.inr ⟨"id:3:initdefault:".toList, rfl⟩)).mpr
  exact .inr ⟨"ttyS1,115200".toList, by decide, by decide⟩

end CgxLayer.Installer

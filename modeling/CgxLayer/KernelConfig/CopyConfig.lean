import CgxLayer.KernelConfig.Datastore
import Mathlib.Data.List.TakeWhile

namespace CgxLayer.KernelConfig

open Text

def OneLine (s : Text) : Prop := ∀ c ∈ s, c ≠ '\n' ∧ c ≠ '\r'

structure IsSymbol (x : Text) : Prop where
  opens : configPrefix <+: x
  plain : '=' ∉ x
  oneLine : OneLine x

structure NewVars where
  vars : Dict Text Text
  symbols : ∀ e ∈ vars.entries, IsSymbol e.1
  values : ∀ e ∈ vars.entries, OneLine e.2

def unset (var : Text) : Text := "# ".toList ++ (var ++ " is not set".toList)

-- the pattern `y$|m$|["0-9]`, whose `$` also stands before a newline that ends the string
def isLiteral (val : Text) : Bool :=
  val == ['y'] || val == ['y', '\n'] || val == ['m'] || val == ['m', '\n'] ||
    (val.head?.map (fun c => c == '"' || c.isDigit)).getD false

def writeConfigLine (var val : Text) : Text :=
  if val = ['n'] then unset var
  else if isLiteral val then assigned var val
  else assigned var ('"' :: (val ++ ['"']))

def configChar (c : Char) : Bool := c.isUpper || c.isDigit || c == '_'

def matchConfigVar (s : Text) : Option (Text × Text) :=
  let rest := s.drop configPrefix.length
  if startsWith configPrefix s && !(rest.takeWhile configChar).isEmpty then
    some (configPrefix ++ rest.takeWhile configChar, rest.dropWhile configChar)
  else none

def reVarValue (line : Text) : Option Text :=
  match matchConfigVar line with
  | some (var, rest) => if startsWith ['='] rest then some var else none
  | none => none

def reCommentedVar (line : Text) : Option Text :=
  if startsWith "# ".toList line then
    match matchConfigVar (line.drop 2) with
    | some (var, rest) => if rest = " is not set".toList then some var else none
    | none => none
  else none

def matchedVar (line : Text) : Option Text := (reVarValue line).or (reCommentedVar line)

def copyLines (vars : Dict Text Text) : List Text → List Text
  | [] => vars.entries.map (fun e => writeConfigLine e.1 e.2)
  | line :: rest =>
    match matchedVar line with
    | none => line :: copyLines vars rest
    | some var =>
      match vars.get? var with
      | none => line :: copyLines vars rest
      | some val => writeConfigLine var val :: copyLines (vars.del var) rest

def copyConfig (config : List Text) (newVars : NewVars) : List Text := copyLines newVars.vars config

inductive Setting where
  | value (val : Text)
  | notSet
deriving DecidableEq

def settingOf (x line : Text) : Option Setting :=
  match splitFirst '=' line with
  | some (y, val) => if y = x then some (.value val) else none
  | none => if line = unset x then some .notSet else none

/-- What Kconfig reads for a symbol: the last line that decides it. -/
def readConfig (x : Text) : List Text → Option Setting
  | [] => none
  | line :: rest => (readConfig x rest).or (settingOf x line)

/-- The lines after the first one that `copy_config` takes for a setting of `x`. -/
def afterMatch (x : Text) : List Text → List Text
  | [] => []
  | line :: rest => if matchedVar line = some x then rest else afterMatch x rest

theorem unset_plain {x : Text} (hx : '=' ∉ x) : '=' ∉ unset x := by
  have hleft : '=' ∉ "# ".toList := by decide
  have hright : '=' ∉ " is not set".toList := by decide
  simp only [unset, List.mem_append, not_or]
  exact ⟨hleft, hx, hright⟩

theorem settingOf_assigned {x : Text} (hx : '=' ∉ x) (val : Text) :
    settingOf x (assigned x val) = some (.value val) := by
  simp [settingOf, assigned, splitFirst_append x val hx]

theorem settingOf_unset {x : Text} (hx : '=' ∉ x) : settingOf x (unset x) = some .notSet := by
  simp [settingOf, splitFirst_none.mpr (unset_plain hx)]

theorem settingOf_inj {x y line : Text} {s s' : Setting} (hx : settingOf x line = some s)
    (hy : settingOf y line = some s') : x = y := by
  unfold settingOf at hx hy
  cases hsplit : splitFirst '=' line with
  | some p =>
    simp only [hsplit] at hx hy
    split_ifs at hx hy with hpx hpy
    exact hpx.symm.trans hpy
  | none =>
    simp only [hsplit] at hx hy
    split_ifs at hx hy with hux huy
    have hunset : unset x = unset y := hux.symm.trans huy
    exact List.append_cancel_right (List.append_cancel_left hunset)

theorem exists_setting {x : Text} (hx : '=' ∉ x) (val : Text) :
    ∃ s, settingOf x (writeConfigLine x val) = some s := by
  unfold writeConfigLine
  split_ifs
  · exact ⟨_, settingOf_unset hx⟩
  · exact ⟨_, settingOf_assigned hx _⟩
  · exact ⟨_, settingOf_assigned hx _⟩

theorem settingOf_of_ne {x y line : Text} (hx : ∃ s, settingOf x line = some s) (hne : y ≠ x) :
    settingOf y line = none := by
  obtain ⟨s, hs⟩ := hx
  cases hy : settingOf y line with
  | none => rfl
  | some s' => exact absurd (settingOf_inj hy hs) hne

theorem matchConfigVar_eq {s x rest : Text} (h : matchConfigVar s = some (x, rest)) :
    s = x ++ rest ∧ '=' ∉ x := by
  simp only [matchConfigVar] at h
  split_ifs at h with hopen
  simp only [Option.some.injEq, Prod.mk.injEq] at h
  obtain ⟨rfl, rfl⟩ := h
  rw [Bool.and_eq_true] at hopen
  obtain ⟨t, rfl⟩ := startsWith_iff.mp hopen.1
  rw [List.drop_left]
  constructor
  · rw [List.append_assoc, List.takeWhile_append_dropWhile]
  · intro hmem
    rcases List.mem_append.mp hmem with hmem | hmem
    · revert hmem
      decide
    · have hchar : configChar '=' = true := List.mem_takeWhile_imp hmem
      revert hchar
      decide

theorem matchedVar_plain {line x : Text} (h : matchedVar line = some x) :
    ∃ s, settingOf x line = some s := by
  rcases Option.or_eq_some_iff.mp h with h | ⟨-, h⟩
  · unfold reVarValue at h
    cases hm : matchConfigVar line with
    | none => simp [hm] at h
    | some p =>
      obtain ⟨var, rest⟩ := p
      simp only [hm] at h
      split_ifs at h with heq
      obtain rfl := Option.some.inj h
      obtain ⟨rfl, hplain⟩ := matchConfigVar_eq hm
      obtain ⟨val, rfl⟩ := startsWith_iff.mp heq
      exact ⟨_, settingOf_assigned hplain val⟩
  · unfold reCommentedVar at h
    split_ifs at h with hopen
    cases hm : matchConfigVar (line.drop 2) with
    | none => simp [hm] at h
    | some p =>
      obtain ⟨var, rest⟩ := p
      simp only [hm] at h
      split_ifs at h with heq
      obtain rfl := Option.some.inj h
      obtain ⟨hdrop, hplain⟩ := matchConfigVar_eq hm
      obtain ⟨t, rfl⟩ := startsWith_iff.mp hopen
      have ht : t = var ++ " is not set".toList := by
        rw [← heq, ← hdrop]
        rfl
      rw [ht]
      exact ⟨_, settingOf_unset hplain⟩

theorem readConfig_written_of_not_mem {x : Text} {es : List (Text × Text)}
    (hes : ∀ e ∈ es, '=' ∉ e.1) (hx : x ∉ es.map Prod.fst) :
    readConfig x (es.map (fun e => writeConfigLine e.1 e.2)) = none := by
  induction es with
  | nil => rfl
  | cons e es ih =>
    rw [List.map_cons, List.mem_cons, not_or] at hx
    have htail := ih (fun f hf => hes f (List.mem_cons_of_mem _ hf)) hx.2
    have hhead := settingOf_of_ne (exists_setting (hes e (List.mem_cons_self ..)) e.2) hx.1
    rw [List.map_cons, readConfig, htail, hhead]
    rfl

theorem readConfig_written {x val : Text} {es : List (Text × Text)} (hes : ∀ e ∈ es, '=' ∉ e.1)
    (hnodup : (es.map Prod.fst).Nodup) (hx : (x, val) ∈ es) :
    readConfig x (es.map (fun e => writeConfigLine e.1 e.2)) = settingOf x (writeConfigLine x val) := by
  induction es with
  | nil => simp at hx
  | cons e es ih =>
    rw [List.map_cons, List.nodup_cons] at hnodup
    have hes' : ∀ f ∈ es, '=' ∉ f.1 := fun f hf => hes f (List.mem_cons_of_mem _ hf)
    rw [List.map_cons, readConfig]
    rcases List.mem_cons.mp hx with rfl | hx
    · rw [readConfig_written_of_not_mem hes' hnodup.1]
      rfl
    · have hne : x ≠ e.1 := fun h => hnodup.1 (h ▸ List.mem_map_of_mem hx)
      have hhead := settingOf_of_ne (exists_setting (hes e (List.mem_cons_self ..)) e.2) hne
      rw [ih hes' hnodup.2 hx, hhead, Option.or_none]

theorem copyLines_kept {vars : Dict Text Text} {line : Text}
    (h : ∀ var, matchedVar line = some var → var ∉ vars.keys) (rest : List Text) :
    copyLines vars (line :: rest) = line :: copyLines vars rest := by
  rw [copyLines]
  cases hm : matchedVar line with
  | none => rfl
  | some var => simp only [Dict.get?_eq_none.mpr (h var hm)]

theorem copyLines_written {vars : Dict Text Text} {line var val : Text}
    (hm : matchedVar line = some var) (hv : (var, val) ∈ vars.entries) (rest : List Text) :
    copyLines vars (line :: rest) = writeConfigLine var val :: copyLines (vars.del var) rest := by
  simp only [copyLines, hm, Dict.get?_eq_some.mpr hv]

theorem plain_del {vars : Dict Text Text} (hvars : ∀ e ∈ vars.entries, '=' ∉ e.1) (var : Text) :
    ∀ e ∈ (vars.del var).entries, '=' ∉ e.1 :=
  fun e he => hvars e (Dict.mem_del.mp he).1

theorem readConfig_copyLines_of_not_mem {vars : Dict Text Text} {y : Text} (config : List Text)
    (hvars : ∀ e ∈ vars.entries, '=' ∉ e.1) (hy : y ∉ vars.keys) :
    readConfig y (copyLines vars config) = readConfig y config := by
  induction config generalizing vars with
  | nil => exact readConfig_written_of_not_mem hvars hy
  | cons line rest ih =>
    by_cases h : ∃ var, matchedVar line = some var ∧ var ∈ vars.keys
    · obtain ⟨var, hm, hvar⟩ := h
      obtain ⟨val, hval⟩ := Dict.mem_keys_iff.mp hvar
      have hne : y ≠ var := fun h => hy (h ▸ hvar)
      have hdel : y ∉ (vars.del var).keys := fun h => hy (Dict.mem_keys_del.mp h).1
      rw [copyLines_written hm hval, readConfig, readConfig, ih (plain_del hvars var) hdel,
        settingOf_of_ne (exists_setting (hvars _ hval) val) hne, settingOf_of_ne (matchedVar_plain hm) hne]
    · rw [copyLines_kept (fun var hm hvar => h ⟨var, hm, hvar⟩), readConfig, readConfig, ih hvars hy]

theorem readConfig_copyLines_of_mem {vars : Dict Text Text} {x val : Text} (config : List Text)
    (hvars : ∀ e ∈ vars.entries, '=' ∉ e.1) (hx : (x, val) ∈ vars.entries) :
    readConfig x (copyLines vars config) =
      (readConfig x (afterMatch x config)).or (settingOf x (writeConfigLine x val)) := by
  induction config generalizing vars with
  | nil =>
    rw [copyLines, readConfig_written hvars vars.nodup hx]
    rfl
  | cons line rest ih =>
    by_cases h : ∃ var, matchedVar line = some var ∧ var ∈ vars.keys
    · obtain ⟨var, hm, hvar⟩ := h
      obtain ⟨u, hu⟩ := Dict.mem_keys_iff.mp hvar
      rw [copyLines_written hm hu, readConfig]
      rcases eq_or_ne x var with rfl | hne
      · have hdel : x ∉ (vars.del x).keys := fun h => (Dict.mem_keys_del.mp h).2 rfl
        rw [readConfig_copyLines_of_not_mem rest (plain_del hvars x) hdel, afterMatch, if_pos hm,
          Dict.eq_of_mem hu hx]
      · have hother : matchedVar line ≠ some x := by simp [hm, hne.symm]
        rw [ih (plain_del hvars var) (Dict.mem_del.mpr ⟨hx, hne⟩), afterMatch, if_neg hother,
          settingOf_of_ne (exists_setting (hvars _ hu) u) hne, Option.or_none]
    · obtain ⟨s, hs⟩ := exists_setting (hvars _ hx) val
      have hother : matchedVar line ≠ some x := fun hm => h ⟨x, hm, Dict.mem_keys_of_mem hx⟩
      rw [copyLines_kept (fun var hm hvar => h ⟨var, hm, hvar⟩), readConfig, ih hvars hx, afterMatch,
        if_neg hother, hs]
      cases readConfig x (afterMatch x rest) <;> rfl

/-- The new file gives the symbols of `new_vars` the settings written for them and every other
symbol the setting it had. -/
structure Overrides (config : List Text) (newVars : NewVars) : Prop where
  changed : ∀ e ∈ newVars.vars.entries,
    readConfig e.1 (copyConfig config newVars) = settingOf e.1 (writeConfigLine e.1 e.2)
  kept : ∀ y, IsSymbol y → y ∉ newVars.vars.keys →
    readConfig y (copyConfig config newVars) = readConfig y config

/-- After the first line taken for a setting of it, a symbol of `new_vars` is not set again, or
set last to what is written for it. -/
def NotSetAgain (config : List Text) (newVars : NewVars) : Prop :=
  ∀ e ∈ newVars.vars.entries, readConfig e.1 (afterMatch e.1 config) = none ∨
    readConfig e.1 (afterMatch e.1 config) = settingOf e.1 (writeConfigLine e.1 e.2)

theorem NewVars.plain (newVars : NewVars) : ∀ e ∈ newVars.vars.entries, '=' ∉ e.1 :=
  fun e he => (newVars.symbols e he).plain

theorem overrides_iff_notSetAgain (config : List Text) (newVars : NewVars) :
    Overrides config newVars ↔ NotSetAgain config newVars := by
  have hread : ∀ e ∈ newVars.vars.entries,
      (readConfig e.1 (copyConfig config newVars) = settingOf e.1 (writeConfigLine e.1 e.2) ↔
        readConfig e.1 (afterMatch e.1 config) = none ∨
          readConfig e.1 (afterMatch e.1 config) = settingOf e.1 (writeConfigLine e.1 e.2)) := by
    intro e he
    obtain ⟨s, hs⟩ := exists_setting (newVars.plain e he) e.2
    rw [copyConfig, readConfig_copyLines_of_mem config newVars.plain he, hs]
    cases readConfig e.1 (afterMatch e.1 config) <;> simp
  constructor
  · intro h e he
    exact (hread e he).mp (h.changed e he)
  · intro h
    refine ⟨fun e he => (hread e he).mpr (h e he), fun y _ hy => ?_⟩
    exact readConfig_copyLines_of_not_mem config newVars.plain hy

def usbBuiltIn : NewVars where
  vars := ⟨[("CONFIG_USB".toList, "y".toList)], by decide⟩
  symbols := by
    intro e he
    obtain rfl := List.mem_singleton.mp he
    exact ⟨by decide, by decide, by unfold OneLine; decide⟩
  values := by
    intro e he
    obtain rfl := List.mem_singleton.mp he
    unfold OneLine
    decide

theorem second_setting_wins :
    ¬ Overrides ["# CONFIG_USB is not set".toList, "CONFIG_USB=m".toList] usbBuiltIn := by
  intro h
  have hchanged := h.changed ("CONFIG_USB".toList, "y".toList) (by decide)
  revert hchanged
  decide

end CgxLayer.KernelConfig

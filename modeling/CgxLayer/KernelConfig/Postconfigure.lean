import CgxLayer.KernelConfig.LineEdits
import Mathlib.Logic.Function.Iterate

namespace CgxLayer.KernelConfig

open Text

def copyConfigText (newVars : Dict Text Text) (config : Text) : Text :=
  unlines (copyLines newVars (fileLines config))

-- What becomes of `.config` when there is one; the saved copy has its newlines translated.
def doKernelPostconfigure (d : Datastore) (config : Option Text) : Option Text :=
  if (getKernelConfigVars d).isEmpty then config
  else config.map (fun config => copyConfigText (getKernelConfigVars d) (universalNewlines config))

def SingleLine (d : Datastore) : Prop := ∀ e ∈ (getKernelConfigVars d).entries, OneLine e.2

/-- Copying again, with the same new settings, changes nothing, and neither does the whole step
when it is run any number of times more. -/
structure Rerunnable (d : Datastore) (config : Text) : Prop where
  copy : copyConfigText (getKernelConfigVars d) (copyConfigText (getKernelConfigVars d) config) =
    copyConfigText (getKernelConfigVars d) config
  runs : ∀ n, (doKernelPostconfigure d)^[n + 1] (some config) = doKernelPostconfigure d (some config)

-- The names that `CONFIG_[A-Z0-9_]+` matches.
def isConfigPattern (x : Text) : Bool :=
  startsWith configPrefix x && !(x.drop configPrefix.length).isEmpty &&
    (x.drop configPrefix.length).all configChar

theorem isConfigPattern_iff {x : Text} : isConfigPattern x = true ↔
    ∃ name, x = configPrefix ++ name ∧ name ≠ [] ∧ ∀ c ∈ name, configChar c = true := by
  constructor
  · intro h
    rw [isConfigPattern, Bool.and_eq_true, Bool.and_eq_true, startsWith_iff] at h
    obtain ⟨⟨⟨name, rfl⟩, hne⟩, hall⟩ := h
    rw [List.drop_left] at hne hall
    exact ⟨name, rfl, by simpa using hne, List.all_eq_true.mp hall⟩
  · rintro ⟨name, rfl, hne, hall⟩
    have hstart : startsWith configPrefix (configPrefix ++ name) = true := startsWith_iff.mpr ⟨name, rfl⟩
    rw [isConfigPattern, hstart, List.drop_left, List.all_eq_true.mpr hall]
    simpa using hne

theorem takeWhile_name {name rest : Text} (hname : ∀ c ∈ name, configChar c = true)
    (hrest : ∀ c ∈ rest.head?, configChar c = false) :
    (name ++ rest).takeWhile configChar = name ∧ (name ++ rest).dropWhile configChar = rest := by
  have hempty : rest.takeWhile configChar = [] ∧ rest.dropWhile configChar = rest := by
    cases rest with
    | nil => exact ⟨rfl, rfl⟩
    | cons c rest =>
      have hc := hrest c rfl
      exact ⟨List.takeWhile_cons_of_neg (by simp [hc]), List.dropWhile_cons_of_neg (by simp [hc])⟩
  rw [List.takeWhile_append_of_pos hname, List.dropWhile_append_of_pos hname, hempty.1, hempty.2,
    List.append_nil]
  exact ⟨rfl, rfl⟩

theorem matchConfigVar_pattern {x rest : Text} (hx : isConfigPattern x = true)
    (hrest : ∀ c ∈ rest.head?, configChar c = false) : matchConfigVar (x ++ rest) = some (x, rest) := by
  obtain ⟨name, rfl, hne, hall⟩ := isConfigPattern_iff.mp hx
  have hstart : startsWith configPrefix (configPrefix ++ (name ++ rest)) = true :=
    startsWith_iff.mpr ⟨name ++ rest, rfl⟩
  obtain ⟨htake, hdrop⟩ := takeWhile_name hall hrest
  simp only [matchConfigVar, hstart, List.append_assoc, List.drop_left, htake, hdrop]
  simp [hne]

theorem isConfigPattern_of_match {s x rest : Text} (h : matchConfigVar s = some (x, rest)) :
    isConfigPattern x = true := by
  simp only [matchConfigVar] at h
  split_ifs at h with hopen
  obtain ⟨rfl, rfl⟩ := Prod.mk.inj (Option.some.inj h)
  rw [Bool.and_eq_true] at hopen
  refine isConfigPattern_iff.mpr ⟨_, rfl, ?_, fun c hc => List.mem_takeWhile_imp hc⟩
  simpa using hopen.2

theorem isConfigPattern_of_matchedVar {line x : Text} (h : matchedVar line = some x) :
    isConfigPattern x = true := by
  rcases Option.or_eq_some_iff.mp h with h | ⟨-, h⟩
  · unfold reVarValue at h
    cases hm : matchConfigVar line with
    | none => simp [hm] at h
    | some p =>
      simp only [hm] at h
      split_ifs at h
      obtain rfl := Option.some.inj h
      exact isConfigPattern_of_match hm
  · unfold reCommentedVar at h
    split_ifs at h
    cases hm : matchConfigVar (line.drop 2) with
    | none => simp [hm] at h
    | some p =>
      simp only [hm] at h
      split_ifs at h
      obtain rfl := Option.some.inj h
      exact isConfigPattern_of_match hm

theorem matchedVar_assigned {x : Text} (hx : isConfigPattern x = true) (val : Text) :
    matchedVar (assigned x val) = some x := by
  have heq : ∀ c ∈ ('=' :: val).head?, configChar c = false := by
    intro c hc
    obtain rfl := Option.some.inj hc
    decide
  have hstart : startsWith ['='] ('=' :: val) = true := startsWith_iff.mpr ⟨val, rfl⟩
  rw [matchedVar, reVarValue, assigned, matchConfigVar_pattern hx heq]
  simp only [hstart, if_true, Option.some_or]

theorem matchedVar_unset {x : Text} (hx : isConfigPattern x = true) : matchedVar (unset x) = some x := by
  have hvalue : reVarValue (unset x) = none := by
    have hopen : startsWith configPrefix (unset x) = false := rfl
    simp [reVarValue, matchConfigVar, hopen]
  have hend : ∀ c ∈ (" is not set".toList).head?, configChar c = false := by
    intro c hc
    obtain rfl : ' ' = c := Option.some.inj hc
    decide
  have hstart : startsWith "# ".toList (unset x) = true := startsWith_iff.mpr ⟨_, rfl⟩
  have hdrop : (unset x).drop 2 = x ++ " is not set".toList := rfl
  rw [matchedVar, hvalue, Option.none_or, reCommentedVar, if_pos hstart, hdrop, matchConfigVar_pattern hx hend]
  simp only [if_true]

theorem matchedVar_written {x : Text} (hx : isConfigPattern x = true) (val : Text) :
    matchedVar (writeConfigLine x val) = some x := by
  unfold writeConfigLine
  split_ifs
  · exact matchedVar_unset hx
  · exact matchedVar_assigned hx val
  · exact matchedVar_assigned hx _

theorem copyLines_added (es : List (Text × Text)) (hnodup : (es.map Prod.fst).Nodup)
    (hes : ∀ e ∈ es, isConfigPattern e.1 = true) :
    copyLines ⟨es, hnodup⟩ (es.map (fun e => writeConfigLine e.1 e.2)) =
      es.map (fun e => writeConfigLine e.1 e.2) := by
  induction es with
  | nil => rfl
  | cons e es ih =>
    have hm := matchedVar_written (hes e (List.mem_cons_self ..)) e.2
    have hnodup' := List.nodup_cons.mp hnodup
    have hdel : Dict.del ⟨e :: es, hnodup⟩ e.1 = ⟨es, hnodup'.2⟩ := by
      have hfresh : ∀ f ∈ es, (f.1 ≠ e.1) := fun f hf heq => hnodup'.1 (heq ▸ List.mem_map_of_mem hf)
      simp only [Dict.del, Dict.mk.injEq]
      rw [List.filter_cons_of_neg (by simp), List.filter_eq_self.mpr (by simpa using hfresh)]
    rw [List.map_cons, @copyLines_written ⟨e :: es, hnodup⟩ _ _ _ hm (List.mem_cons_self ..), hdel,
      ih hnodup'.2 (fun f hf => hes f (List.mem_cons_of_mem _ hf))]

theorem copyLines_idem {vars : Dict Text Text} (hvars : ∀ e ∈ vars.entries, isConfigPattern e.1 = true)
    (ls : List Text) : copyLines vars (copyLines vars ls) = copyLines vars ls := by
  induction ls generalizing vars with
  | nil => exact copyLines_added vars.entries vars.nodup hvars
  | cons line rest ih =>
    by_cases h : ∃ var, matchedVar line = some var ∧ var ∈ vars.keys
    · obtain ⟨var, hm, hvar⟩ := h
      obtain ⟨val, hval⟩ := Dict.mem_keys_iff.mp hvar
      have hdel : ∀ e ∈ (vars.del var).entries, isConfigPattern e.1 = true :=
        fun e he => hvars e (Dict.mem_del.mp he).1
      rw [copyLines_written hm hval, copyLines_written (matchedVar_written (hvars _ hval) val) hval, ih hdel]
    · have hkept : ∀ var, matchedVar line = some var → var ∉ vars.keys := fun var hm hvar => h ⟨var, hm, hvar⟩
      rw [copyLines_kept hkept, copyLines_kept hkept, ih hvars]

theorem length_copyLines (vars : Dict Text Text) (ls : List Text) :
    (copyLines vars ls).length - ls.length = (remaining vars ls).length := by
  have hlen := congrArg List.length (edits_lineByLine vars ls).added
  rwa [List.length_drop, List.length_map, ← List.length_map (f := Edit.line), edits_line] at hlen

theorem mem_remaining_of_not_pattern {vars : Dict Text Text} {e : Text × Text} (he : e ∈ vars.entries)
    (h : isConfigPattern e.1 ≠ true) (ls : List Text) : e ∈ remaining vars ls := by
  rw [remaining, List.mem_filter]
  refine ⟨he, List.all_eq_true.mpr fun line _ => ?_⟩
  simpa using fun hm => h (isConfigPattern_of_matchedVar hm)

theorem copyLines_grows {vars : Dict Text Text} {e : Text × Text} (he : e ∈ vars.entries)
    (h : isConfigPattern e.1 ≠ true) (ls : List Text) : ls.length < (copyLines vars ls).length := by
  have hpos := List.length_pos_of_mem (mem_remaining_of_not_pattern he h ls)
  have hlen := length_copyLines vars ls
  omega

theorem oneLine_not_mem {s : Text} (h : OneLine s) : '\n' ∉ s ∧ '\r' ∉ s :=
  ⟨fun hm => (h _ hm).1 rfl, fun hm => (h _ hm).2 rfl⟩

theorem oneLine_writeConfigLine {x val : Text} (hx : OneLine x) (hval : OneLine val) :
    OneLine (writeConfigLine x val) := by
  have hfixed : OneLine "# ".toList ∧ OneLine " is not set".toList := by
    unfold OneLine
    decide
  intro c hc
  unfold writeConfigLine at hc
  split_ifs at hc
  · simp only [unset, List.mem_append] at hc
    rcases hc with hc | hc | hc
    · exact hfixed.1 c hc
    · exact hx c hc
    · exact hfixed.2 c hc
  · simp only [assigned, List.mem_append, List.mem_cons] at hc
    rcases hc with hc | rfl | hc
    · exact hx c hc
    · decide
    · exact hval c hc
  · simp only [assigned, List.mem_append, List.mem_cons, List.not_mem_nil, or_false] at hc
    rcases hc with hc | rfl | rfl | hc | rfl
    · exact hx c hc
    · decide
    · decide
    · exact hval c hc
    · decide

theorem oneLine_copyLines {vars : Dict Text Text} (hvars : ∀ e ∈ vars.entries, OneLine e.1 ∧ OneLine e.2)
    {ls : List Text} (hls : ∀ l ∈ ls, OneLine l) : ∀ l ∈ copyLines vars ls, OneLine l := by
  induction ls generalizing vars with
  | nil =>
    intro l hl
    obtain ⟨e, he, rfl⟩ := List.mem_map.mp hl
    exact oneLine_writeConfigLine (hvars e he).1 (hvars e he).2
  | cons line rest ih =>
    have hrest : ∀ l ∈ rest, OneLine l := fun l hl => hls l (List.mem_cons_of_mem _ hl)
    by_cases h : ∃ var, matchedVar line = some var ∧ var ∈ vars.keys
    · obtain ⟨var, hm, hvar⟩ := h
      obtain ⟨val, hval⟩ := Dict.mem_keys_iff.mp hvar
      rw [copyLines_written hm hval]
      intro l hl
      rcases List.mem_cons.mp hl with rfl | hl
      · exact oneLine_writeConfigLine (hvars _ hval).1 (hvars _ hval).2
      · exact ih (fun e he => hvars e (Dict.mem_del.mp he).1) hrest l hl
    · rw [copyLines_kept (fun var hm hvar => h ⟨var, hm, hvar⟩)]
      intro l hl
      rcases List.mem_cons.mp hl with rfl | hl
      · exact hls l (List.mem_cons_self ..)
      · exact ih hvars hrest l hl

theorem oneLine_fileLines {text l : Text} (hl : l ∈ fileLines text) : OneLine l := by
  intro c hc
  constructor
  · rintro rfl
    exact newline_not_mem_fileLines hl hc
  · rintro rfl
    exact carriage_not_mem_fileLines hl hc

theorem oneLine_symbol {d : Datastore} {e : Text × Text} (he : e ∈ (getKernelConfigVars d).entries) :
    OneLine e.1 := by
  obtain ⟨var, hvar, hdrop⟩ := Datastore.mem_getKernelConfigVars.mp he
  intro c hc
  have hword := (Datastore.name_of_mem hvar).word c (List.mem_of_mem_drop (hdrop ▸ hc))
  constructor
  · rintro rfl
    exact absurd hword (by decide)
  · rintro rfl
    exact absurd hword (by decide)

theorem fileLines_copyConfigText {d : Datastore} (hd : SingleLine d) (config : Text) :
    fileLines (copyConfigText (getKernelConfigVars d) config) =
      copyLines (getKernelConfigVars d) (fileLines config) := by
  apply fileLines_unlines
  intro l hl
  apply oneLine_not_mem
  apply oneLine_copyLines _ _ l hl
  · intro e he
    exact ⟨oneLine_symbol he, hd e he⟩
  · intro l hl
    exact oneLine_fileLines hl

theorem copyConfigText_universalNewlines (newVars : Dict Text Text) (config : Text) :
    copyConfigText newVars (universalNewlines config) = copyConfigText newVars config := by
  rw [copyConfigText, fileLines_universalNewlines, copyConfigText]

theorem copyConfigText_idem {d : Datastore} (hd : SingleLine d)
    (h : ∀ x ∈ (getKernelConfigVars d).keys, isConfigPattern x = true) (config : Text) :
    copyConfigText (getKernelConfigVars d) (copyConfigText (getKernelConfigVars d) config) =
      copyConfigText (getKernelConfigVars d) config := by
  rw [copyConfigText, fileLines_copyConfigText hd,
    copyLines_idem (fun e he => h e.1 (Dict.mem_keys_of_mem he)), copyConfigText]

theorem rerunnable_of_pattern {d : Datastore} (hd : SingleLine d)
    (h : ∀ x ∈ (getKernelConfigVars d).keys, isConfigPattern x = true) (config : Text) :
    Rerunnable d config := by
  refine ⟨copyConfigText_idem hd h config, fun n => ?_⟩
  induction n with
  | zero => rfl
  | succ n ih =>
    rw [Function.iterate_succ_apply', ih]
    unfold doKernelPostconfigure
    split_ifs
    · rfl
    · simp only [Option.map_some, copyConfigText_universalNewlines, copyConfigText_idem hd h]

theorem rerunnable_iff_pattern (d : Datastore) (config : Text) (hd : SingleLine d) :
    Rerunnable d config ↔ ∀ x ∈ (getKernelConfigVars d).keys, isConfigPattern x = true := by
  constructor
  · intro h x hx
    by_contra hpattern
    obtain ⟨val, hval⟩ := Dict.mem_keys_iff.mp hx
    have hlines := congrArg fileLines h.copy
    rw [fileLines_copyConfigText hd, fileLines_copyConfigText hd] at hlines
    have hgrows := copyLines_grows hval hpattern (copyLines (getKernelConfigVars d) (fileLines config))
    rw [hlines] at hgrows
    exact absurd hgrows (lt_irrefl _)
  · exact fun h => rerunnable_of_pattern hd h config

def noSymbols : Datastore where
  vars := ⟨[(prefixVar, "KERNEL_".toList), (ignoreVar, [])], by decide⟩
  names := by
    intro x hx
    simp only [Dict.keys, List.map_cons, List.map_nil, List.mem_cons, List.not_mem_nil, or_false] at hx
    rcases hx with rfl | rfl <;> exact ⟨by decide, by decide⟩
  preconfigurePrefix := "KERNEL_".toList
  preconfigureIgnore := []
  prefix_eq := by decide
  ignore_eq := by decide

theorem replaces_one {var : Text} (val : Text) (hname : IsName var) (hvar : noSymbols.isConfigVar var = true) :
    Replaces noSymbols [(var, val)] := by
  refine ⟨List.nodup_singleton _, fun e he => ?_, fun e he => ?_⟩
  · rw [List.mem_singleton.mp he]
    exact hname
  · rw [List.mem_singleton.mp he]
    exact hvar

def smpAlone : Datastore :=
  (@replaces_one "KERNEL_CONFIG_SMP".toList "y".toList ⟨by decide, by decide⟩ (by decide)).datastore

def fontAlone : Datastore :=
  (@replaces_one "KERNEL_CONFIG_FONT_8x16".toList "y".toList ⟨by decide, by decide⟩ (by decide)).datastore

theorem singleLine_smpAlone : SingleLine smpAlone := by
  unfold SingleLine OneLine
  decide

theorem smp_rerunnable : Rerunnable smpAlone "# CONFIG_SMP is not set\n".toList :=
  (rerunnable_iff_pattern smpAlone _ singleLine_smpAlone).mpr (by decide)

theorem font_accumulates : SingleLine fontAlone ∧ ¬ Rerunnable fontAlone [] := by
  constructor
  · unfold SingleLine OneLine
    decide
  · intro h
    have hcopy := congrArg List.length h.copy
    revert hcopy
    decide

end CgxLayer.KernelConfig

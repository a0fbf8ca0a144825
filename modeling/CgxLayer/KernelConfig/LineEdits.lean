import CgxLayer.KernelConfig.CopyConfig
import CgxLayer.TextFile

namespace CgxLayer.KernelConfig

open Text

/-- The dictionaries that the script has made, in that order; a variable holds the place of one. -/
abbrev Maps := List (Dict Text Text)

def Maps.get (m : Maps) (r : ℕ) : Dict Text Text := (m[r]?).getD Dict.empty

def copyLoop (newVars : ℕ) (m : Maps) : List Text → Maps × List Text
  | [] => (m, (m.get newVars).entries.map (fun e => writeConfigLine e.1 e.2))
  | line :: rest =>
    match matchedVar line with
    | none =>
      let out := copyLoop newVars m rest
      (out.1, line :: out.2)
    | some var =>
      match (m.get newVars).get? var with
      | none =>
        let out := copyLoop newVars m rest
        (out.1, line :: out.2)
      | some val =>
        let out := copyLoop newVars (m.set newVars ((m.get newVars).del var)) rest
        (out.1, writeConfigLine var val :: out.2)

def copyConfigFile (newVars : ℕ) (m : Maps) (config : Text) : Maps × Text :=
  let out := copyLoop m.length (m ++ [m.get newVars]) (fileLines config)
  (out.1, unlines out.2)

inductive Edit where
  | kept (line : Text)
  | written (var val : Text)

namespace Edit

def line : Edit → Text
  | .kept line => line
  | .written var val => writeConfigLine var val

def setting : Edit → Option (Text × Text)
  | .kept _ => none
  | .written var val => some (var, val)

end Edit

structure FirstFor (ls : List Text) (var : Text) (i : ℕ) : Prop where
  here : ls[i]?.bind matchedVar = some var
  before : ∀ j < i, ls[j]?.bind matchedVar ≠ some var

def remaining (vars : Dict Text Text) (ls : List Text) : List (Text × Text) :=
  vars.entries.filter (fun e => ls.all (fun line => matchedVar line ≠ some e.1))

structure LineByLine (vars : Dict Text Text) (ls : List Text) (es : List Edit) : Prop where
  replaced : ∀ e ∈ vars.entries, ∀ i, FirstFor ls e.1 i → es[i]? = some (.written e.1 e.2)
  kept : ∀ i line, ls[i]? = some line → (∀ var ∈ vars.keys, ¬ FirstFor ls var i) → es[i]? = some (.kept line)
  added : es.drop ls.length = (remaining vars ls).map (fun e => .written e.1 e.2)
  once : (es.filterMap Edit.setting).Perm vars.entries

def edits (vars : Dict Text Text) : List Text → List Edit
  | [] => vars.entries.map (fun e => .written e.1 e.2)
  | line :: rest =>
    match matchedVar line with
    | none => .kept line :: edits vars rest
    | some var =>
      match vars.get? var with
      | none => .kept line :: edits vars rest
      | some val => .written var val :: edits (vars.del var) rest

theorem edits_line (vars : Dict Text Text) (ls : List Text) :
    (edits vars ls).map Edit.line = copyLines vars ls := by
  induction ls generalizing vars with
  | nil => simp [edits, copyLines, Edit.line, Function.comp_def]
  | cons line rest ih =>
    rw [edits, copyLines]
    cases matchedVar line with
    | none => simp only [List.map_cons, Edit.line, ih]
    | some var => cases hget : vars.get? var <;> simp only [hget, List.map_cons, Edit.line, ih]

theorem edits_kept {vars : Dict Text Text} {line : Text}
    (h : ∀ var, matchedVar line = some var → var ∉ vars.keys) (rest : List Text) :
    edits vars (line :: rest) = .kept line :: edits vars rest := by
  rw [edits]
  cases hm : matchedVar line with
  | none => rfl
  | some var => simp only [Dict.get?_eq_none.mpr (h var hm)]

theorem edits_written {vars : Dict Text Text} {line var val : Text}
    (hm : matchedVar line = some var) (hv : (var, val) ∈ vars.entries) (rest : List Text) :
    edits vars (line :: rest) = .written var val :: edits (vars.del var) rest := by
  simp only [edits, hm, Dict.get?_eq_some.mpr hv]

theorem firstFor_zero {line : Text} {rest : List Text} {var : Text} :
    FirstFor (line :: rest) var 0 ↔ matchedVar line = some var := by
  constructor
  · exact fun h => h.here
  · intro h
    exact ⟨h, fun j hj => absurd hj (Nat.not_lt_zero j)⟩

theorem firstFor_succ {line : Text} {rest : List Text} {var : Text} {i : ℕ} :
    FirstFor (line :: rest) var (i + 1) ↔ matchedVar line ≠ some var ∧ FirstFor rest var i := by
  constructor
  · intro h
    refine ⟨h.before 0 (Nat.succ_pos i), h.here, fun j hj => ?_⟩
    exact h.before (j + 1) (Nat.succ_lt_succ hj)
  · rintro ⟨hline, h⟩
    refine ⟨h.here, fun j hj => ?_⟩
    cases j with
    | zero => exact hline
    | succ j => exact h.before j (Nat.lt_of_succ_lt_succ hj)

theorem remaining_cons (vars : Dict Text Text) (line : Text) (rest : List Text) :
    remaining vars (line :: rest) =
      (remaining vars rest).filter (fun e => matchedVar line ≠ some e.1) := by
  rw [remaining, remaining, List.filter_filter]
  apply List.filter_congr
  intro e _
  simp

theorem remaining_del (vars : Dict Text Text) (var : Text) (ls : List Text) :
    remaining (vars.del var) ls = (remaining vars ls).filter (fun e => e.1 ≠ var) := by
  rw [remaining, remaining, Dict.del, List.filter_filter, List.filter_filter]
  apply List.filter_congr
  intro e _
  rw [Bool.and_comm]

theorem entries_perm_del {vars : Dict Text Text} {var val : Text} (h : (var, val) ∈ vars.entries) :
    ((var, val) :: (vars.del var).entries).Perm vars.entries := by
  apply (List.perm_ext_iff_of_nodup _ (List.Nodup.of_map Prod.fst vars.nodup)).mpr
  · intro e
    rw [List.mem_cons, Dict.mem_del]
    constructor
    · rintro (rfl | he)
      · exact h
      · exact he.1
    · intro he
      rcases eq_or_ne e.1 var with hvar | hvar
      · left
        obtain rfl := hvar
        exact Prod.ext rfl (Dict.eq_of_mem he h)
      · exact .inr ⟨he, hvar⟩
  · rw [List.nodup_cons, Dict.mem_del]
    exact ⟨fun hmem => hmem.2 rfl, List.Nodup.of_map Prod.fst (vars.del var).nodup⟩

theorem edits_kept_lineByLine {vars : Dict Text Text} {line : Text} {rest : List Text}
    (h : ∀ var, matchedVar line = some var → var ∉ vars.keys)
    (hrest : LineByLine vars rest (edits vars rest)) :
    LineByLine vars (line :: rest) (edits vars (line :: rest)) := by
  rw [edits_kept h]
  refine ⟨fun e he i hi => ?_, fun i l hl hnot => ?_, ?_, hrest.once⟩
  · cases i with
    | zero => exact absurd (Dict.mem_keys_of_mem he) (h e.1 (firstFor_zero.mp hi))
    | succ i => exact hrest.replaced e he i (firstFor_succ.mp hi).2
  · cases i with
    | zero =>
      obtain rfl := Option.some.inj hl
      rfl
    | succ i =>
      apply hrest.kept i l hl
      intro var hvar hfirst
      exact hnot var hvar (firstFor_succ.mpr ⟨fun hm => h var hm hvar, hfirst⟩)
  · rw [List.length_cons, List.drop_succ_cons, hrest.added, remaining_cons, List.filter_eq_self.mpr]
    intro e he
    have hmem : e.1 ∈ vars.keys := Dict.mem_keys_of_mem (List.mem_filter.mp he).1
    simpa using fun hm => h e.1 hm hmem

theorem edits_written_lineByLine {vars : Dict Text Text} {line var val : Text} {rest : List Text}
    (hm : matchedVar line = some var) (hv : (var, val) ∈ vars.entries)
    (hrest : LineByLine (vars.del var) rest (edits (vars.del var) rest)) :
    LineByLine vars (line :: rest) (edits vars (line :: rest)) := by
  rw [edits_written hm hv]
  refine ⟨fun e he i hi => ?_, fun i l hl hnot => ?_, ?_, ?_⟩
  · cases i with
    | zero =>
      obtain rfl : var = e.1 := Option.some.inj (hm.symm.trans (firstFor_zero.mp hi))
      rw [Dict.eq_of_mem he hv]
      rfl
    | succ i =>
      obtain ⟨hne, hi⟩ := firstFor_succ.mp hi
      have hdel : e ∈ (vars.del var).entries := Dict.mem_del.mpr ⟨he, fun h => hne (h ▸ hm)⟩
      exact hrest.replaced e hdel i hi
  · cases i with
    | zero => exact absurd (firstFor_zero.mpr hm) (hnot var (Dict.mem_keys_of_mem hv))
    | succ i =>
      apply hrest.kept i l hl
      intro x hx hfirst
      obtain ⟨hkey, hne⟩ := Dict.mem_keys_del.mp hx
      exact hnot x hkey (firstFor_succ.mpr ⟨fun h => hne (Option.some.inj (h.symm.trans hm)), hfirst⟩)
  · rw [List.length_cons, List.drop_succ_cons, hrest.added, remaining_del, remaining_cons, hm]
    apply congrArg
    apply List.filter_congr
    intro e _
    simp [eq_comm]
  · exact (hrest.once.cons (var, val)).trans (entries_perm_del hv)

theorem edits_lineByLine (vars : Dict Text Text) (ls : List Text) :
    LineByLine vars ls (edits vars ls) := by
  induction ls generalizing vars with
  | nil =>
    refine ⟨fun e _ i hi => ?_, fun i l hl => ?_, ?_, ?_⟩
    · cases hi.here
    · cases hl
    · simp [edits, remaining]
    · have hall : vars.entries.filterMap ((fun e => Edit.setting (.written e.1 e.2))) = vars.entries :=
        List.filterMap_some
      rw [edits, List.filterMap_map]
      exact List.Perm.of_eq hall
  | cons line rest ih =>
    by_cases h : ∃ var, matchedVar line = some var ∧ var ∈ vars.keys
    · obtain ⟨var, hm, hvar⟩ := h
      obtain ⟨val, hval⟩ := Dict.mem_keys_iff.mp hvar
      exact edits_written_lineByLine hm hval (ih (vars.del var))
    · exact edits_kept_lineByLine (fun var hm hvar => h ⟨var, hm, hvar⟩) (ih vars)

theorem Maps.get_concat (m : Maps) (vars : Dict Text Text) : Maps.get (m ++ [vars]) m.length = vars := by
  simp [Maps.get]

theorem Maps.set_concat (m : Maps) (vars vars' : Dict Text Text) :
    (m ++ [vars]).set m.length vars' = m ++ [vars'] := by
  rw [List.set_append_right _ _ (le_refl _), Nat.sub_self, List.set_cons_zero]

theorem copyLoop_concat (m : Maps) (vars : Dict Text Text) (ls : List Text) :
    ∃ vars', copyLoop m.length (m ++ [vars]) ls = (m ++ [vars'], copyLines vars ls) := by
  induction ls generalizing vars with
  | nil => exact ⟨vars, by rw [copyLoop, copyLines, Maps.get_concat]⟩
  | cons line rest ih =>
    rw [copyLoop, copyLines, Maps.get_concat]
    cases matchedVar line with
    | none =>
      obtain ⟨vars', h⟩ := ih vars
      exact ⟨vars', by simp only [h]⟩
    | some var =>
      dsimp only
      cases vars.get? var with
      | none =>
        obtain ⟨vars', h⟩ := ih vars
        exact ⟨vars', by simp only [h]⟩
      | some val =>
        obtain ⟨vars', h⟩ := ih (vars.del var)
        exact ⟨vars', by simp only [Maps.set_concat, h]⟩

theorem copyConfigFile_eq (newVars : ℕ) (m : Maps) (config : Text) :
    ∃ vars', copyConfigFile newVars m config =
      (m ++ [vars'], unlines (copyLines (m.get newVars) (fileLines config))) := by
  obtain ⟨vars', h⟩ := copyLoop_concat m (m.get newVars) (fileLines config)
  exact ⟨vars', by simp only [copyConfigFile, h]⟩

theorem copyConfigFile_lineByLine (newVars : ℕ) (m : Maps) (config : Text) :
    (∃ es, (copyConfigFile newVars m config).2 = unlines (es.map Edit.line) ∧
      LineByLine (m.get newVars) (fileLines config) es) ∧
    ∀ r < m.length, Maps.get (copyConfigFile newVars m config).1 r = m.get r := by
  obtain ⟨vars', h⟩ := copyConfigFile_eq newVars m config
  rw [h]
  constructor
  · refine ⟨edits (m.get newVars) (fileLines config), ?_, edits_lineByLine _ _⟩
    rw [edits_line]
  · intro r hr
    simp [Maps.get, List.getElem?_append_left hr]

end CgxLayer.KernelConfig

import CgxLayer.TextFile

namespace CgxLayer.Shell

open Text

-- The characters of a line, each with whether a backslash stood before it.
abbrev Quoted := List (Char × Bool)

def unescape : Text → Quoted
  | [] => []
  | [c] => if c = '\\' then [] else [(c, false)]
  | c :: d :: s => if c = '\\' then (d, true) :: unescape s else (c, false) :: unescape (d :: s)

def continued : Text → Bool
  | [] => false
  | [c] => c == '\\'
  | c :: d :: s => if c = '\\' then continued s else continued (d :: s)

/-- What each `read` without `-r` gets of the lines of a file; a last line that is continued
makes it fail at the end of the file. -/
def logicalLines : List Text → List Quoted
  | [] => []
  | l :: ls =>
    if continued l then
      match logicalLines ls with
      | [] => []
      | m :: ms => (unescape l ++ m) :: ms
    else unescape l :: logicalLines ls

def isSep (c : Char × Bool) : Bool := !c.2 && shBlank c.1

def stripSep (l : Quoted) : Quoted := ((l.dropWhile isSep).reverse.dropWhile isSep).reverse

def readVars : ℕ → Quoted → List Text
  | 0, _ => []
  | 1, l => [(stripSep l).map Prod.fst]
  | n + 2, l =>
    ((l.dropWhile isSep).takeWhile (fun c => !isSep c)).map Prod.fst ::
      readVars (n + 1) ((l.dropWhile isSep).dropWhile (fun c => !isSep c))

def terminated (text : Text) : List Text := (text.splitOn '\n').dropLast

theorem terminated_unlines {ls : List Text} (h : ∀ l ∈ ls, '\n' ∉ l) : terminated (unlines ls) = ls := by
  unfold terminated
  have hsplit : (unlines ls).splitOn '\n' = ls ++ [[]] := by
    induction ls with
    | nil => rfl
    | cons l ls ih =>
      rw [unlines, List.flatMap_cons, List.append_assoc, List.singleton_append,
        List.splitOn_append_cons_self_of_not_mem (h l (List.mem_cons_self ..)), ← unlines,
        ih (fun m hm => h m (List.mem_cons_of_mem _ hm)), List.cons_append]
  rw [hsplit, List.dropLast_concat]

def plain (s : Text) : Quoted := s.map (fun c => (c, false))

theorem unescape_plain {s : Text} (h : '\\' ∉ s) : unescape s = plain s := by
  induction s using unescape.induct with
  | case1 => rfl
  | case2 => exact absurd (List.mem_singleton_self _) h
  | case3 c hc => simp [unescape, hc, plain]
  | case4 d s ih => exact absurd (List.mem_cons_self ..) h
  | case5 c d s hc ih =>
    rw [unescape, if_neg hc, ih (fun hs => h (List.mem_cons_of_mem _ hs))]
    rfl

theorem getLast_of_continued {s : Text} (h : continued s = true) : ∃ t, s = t ++ ['\\'] := by
  induction s using continued.induct with
  | case1 => cases h
  | case2 c => exact ⟨[], by simpa [continued] using h⟩
  | case3 d s ih =>
    rw [continued, if_pos rfl] at h
    obtain ⟨t, rfl⟩ := ih h
    exact ⟨'\\' :: d :: t, rfl⟩
  | case4 c d s hc ih =>
    rw [continued, if_neg hc] at h
    obtain ⟨t, ht⟩ := ih h
    exact ⟨c :: t, by rw [ht, List.cons_append]⟩

theorem continued_plain {s : Text} (h : '\\' ∉ s) : continued s = false := by
  by_contra hc
  obtain ⟨t, rfl⟩ := getLast_of_continued (Bool.eq_true_of_not_eq_false hc)
  exact h (List.mem_append_right _ (List.mem_singleton_self _))

theorem logicalLines_append {l : Text} (hl : continued l = false) (ls : List Text) :
    ∃ init m, ∀ rest, logicalLines (ls ++ l :: rest) = init ++ (m ++ unescape l) :: logicalLines rest := by
  induction ls with
  | nil => exact ⟨[], [], fun rest => by simp [logicalLines, hl]⟩
  | cons k ls ih =>
    obtain ⟨init, m, ih⟩ := ih
    by_cases hk : continued k = true
    · cases init with
      | nil =>
        refine ⟨[], unescape k ++ m, fun rest => ?_⟩
        rw [List.cons_append, logicalLines, if_pos hk, ih rest]
        simp
      | cons i init =>
        refine ⟨(unescape k ++ i) :: init, m, fun rest => ?_⟩
        rw [List.cons_append, logicalLines, if_pos hk, ih rest]
        simp
    · refine ⟨unescape k :: init, m, fun rest => ?_⟩
      rw [List.cons_append, logicalLines, if_neg hk, ih rest, List.cons_append]

def EndsIn (c : Char) (l : Quoted) : Prop := l = [] ∨ ∃ k, l = k ++ [(c, false)]

theorem EndsIn.suffix {c : Char} {l k : Quoted} (h : EndsIn c l) (hk : k <:+ l) : EndsIn c k := by
  rcases h with rfl | ⟨t, rfl⟩
  · exact .inl (List.suffix_nil.mp hk)
  · rcases List.eq_nil_or_concat k with rfl | ⟨k', d, hd⟩
    · exact .inl rfl
    · rw [List.concat_eq_append] at hd
      subst hd
      have hlast := (List.suffix_concat_iff.mp hk).resolve_left (by simp)
      obtain ⟨t', heq, -⟩ := hlast
      exact .inr ⟨_, heq⟩

theorem stripSep_endsIn {c : Char} (hc : shBlank c = false) {l : Quoted} (h : EndsIn c l) :
    EndsIn c (stripSep l) := by
  have hdrop := h.suffix (List.dropWhile_suffix isSep)
  unfold stripSep
  rcases hdrop with hnil | ⟨k, hk⟩
  · rw [hnil]
    exact .inl rfl
  · have hsep : isSep (c, false) = false := by simp [isSep, hc]
    rw [hk, List.reverse_append, List.reverse_singleton, List.singleton_append,
      List.dropWhile_cons_of_neg (by simp [hsep]), List.reverse_cons, List.reverse_reverse]
    exact .inr ⟨k, rfl⟩

theorem readVars_last {c : Char} (hc : shBlank c = false) (n : ℕ) {l : Quoted} (h : EndsIn c l) :
    ∃ init p, readVars (n + 1) l = init ++ [p] ∧ init.length = n ∧ (p = [] ∨ ∃ q, p = q ++ [c]) := by
  induction n generalizing l with
  | zero =>
    refine ⟨[], _, rfl, rfl, ?_⟩
    rcases stripSep_endsIn hc h with hnil | ⟨k, hk⟩
    · rw [hnil]
      exact .inl rfl
    · rw [hk, List.map_append]
      exact .inr ⟨_, rfl⟩
  | succ n ih =>
    have hrest := h.suffix ((List.dropWhile_suffix (fun c => !isSep c)).trans (List.dropWhile_suffix isSep))
    obtain ⟨init, p, hread, hlen, hp⟩ := ih hrest
    refine ⟨((l.dropWhile isSep).takeWhile (fun c => !isSep c)).map Prod.fst :: init, p, ?_, ?_, hp⟩
    · rw [readVars, hread, List.cons_append]
    · rw [List.length_cons, hlen]

theorem plain_append (s t : Text) : plain (s ++ t) = plain s ++ plain t := List.map_append

theorem plain_fst (s : Text) : (plain s).map Prod.fst = s := by simp [plain, Function.comp_def]

theorem isSep_plain (c : Char) : isSep (c, false) = shBlank c := by simp [isSep]

theorem dropWhile_word {w : Text} (hw : IsWord shBlank w) (l : Quoted) :
    (plain w ++ l).dropWhile isSep = plain w ++ l := by
  cases w with
  | nil => exact absurd rfl hw.1
  | cons c w =>
    have hc : isSep (c, false) = false := by rw [isSep_plain, hw.2 c (List.mem_cons_self ..)]
    exact List.dropWhile_cons_of_neg (by simp [hc])

theorem word_not_sep {w : Text} (hw : IsWord shBlank w) : ∀ c ∈ plain w, (!isSep c) = true := by
  intro c hc
  obtain ⟨d, hd, rfl⟩ := List.mem_map.mp hc
  rw [isSep_plain, hw.2 d hd]
  rfl

theorem stripSep_word {w : Text} (hw : IsWord shBlank w) : stripSep (plain w) = plain w := by
  have hfront := dropWhile_word hw []
  rw [List.append_nil] at hfront
  have hrev : IsWord shBlank w.reverse := ⟨by simpa using hw.1, fun c hc => hw.2 c (List.mem_reverse.mp hc)⟩
  have hback := dropWhile_word hrev []
  rw [List.append_nil] at hback
  have hmap : (plain w).reverse = plain w.reverse := by simp [plain]
  rw [stripSep, hfront, hmap, hback, ← hmap, List.reverse_reverse]

theorem readVars_sep {c : Char × Bool} (hc : isSep c = true) (n : ℕ) (l : Quoted) :
    readVars (n + 1) (c :: l) = readVars (n + 1) l := by
  cases n with
  | zero => simp only [readVars, stripSep, List.dropWhile_cons_of_pos hc]
  | succ n => simp only [readVars, List.dropWhile_cons_of_pos hc]

theorem readVars_word {w : Text} (hw : IsWord shBlank w) (n : ℕ) (l : Quoted) :
    readVars (n + 2) (plain w ++ (' ', false) :: l) = w :: readVars (n + 1) l := by
  have hsep : isSep (' ', false) = true := by decide
  have htake : (((' ', false) : Char × Bool) :: l).takeWhile (fun c => !isSep c) = [] :=
    List.takeWhile_cons_of_neg (by decide)
  have hdrop : (((' ', false) : Char × Bool) :: l).dropWhile (fun c => !isSep c) = (' ', false) :: l :=
    List.dropWhile_cons_of_neg (by decide)
  rw [readVars, dropWhile_word hw, List.takeWhile_append_of_pos (word_not_sep hw), htake,
    List.append_nil, plain_fst, List.dropWhile_append_of_pos (word_not_sep hw), hdrop, readVars_sep hsep]

theorem readVars_join (ws : List Text) (w : Text) (hws : ∀ v ∈ ws, IsWord shBlank v) (hw : IsWord shBlank w) :
    readVars (ws.length + 1) (plain (joinWith ' ' (ws ++ [w]))) = ws ++ [w] := by
  induction ws with
  | nil =>
    rw [List.nil_append, joinWith_singleton]
    simp only [List.length_nil, readVars, stripSep_word hw, plain_fst]
  | cons v ws ih =>
    have hjoin : joinWith ' ' (v :: (ws ++ [w])) = v ++ ' ' :: joinWith ' ' (ws ++ [w]) := by
      cases ws <;> exact joinWith_cons_cons _ _ _ _
    have hline : plain (joinWith ' ' (v :: (ws ++ [w]))) =
        plain v ++ (' ', false) :: plain (joinWith ' ' (ws ++ [w])) := by
      rw [hjoin, plain_append]
      rfl
    rw [List.cons_append, hline, List.length_cons, readVars_word (hws v (List.mem_cons_self ..)),
      ih (fun u hu => hws u (List.mem_cons_of_mem _ hu))]

theorem not_mem_terminated {text l : Text} (h : l ∈ terminated text) : '\n' ∉ l :=
  not_mem_of_mem_splitOn (List.mem_of_mem_dropLast h)

theorem mem_unescape {x : Char × Bool} {s : Text} (h : x ∈ unescape s) : x.1 ∈ s := by
  induction s using unescape.induct with
  | case1 => cases h
  | case2 => simp [unescape] at h
  | case3 c hc =>
    rw [unescape, if_neg hc, List.mem_singleton] at h
    rw [h]
    exact List.mem_singleton_self c
  | case4 d s ih =>
    rw [unescape, if_pos rfl] at h
    rcases List.mem_cons.mp h with rfl | h
    · exact List.mem_cons_of_mem _ (List.mem_cons_self ..)
    · exact List.mem_cons_of_mem _ (List.mem_cons_of_mem _ (ih h))
  | case5 c d s hc ih =>
    rw [unescape, if_neg hc] at h
    rcases List.mem_cons.mp h with rfl | h
    · exact List.mem_cons_self ..
    · exact List.mem_cons_of_mem _ (ih h)

theorem mem_logicalLines {ls : List Text} {m : Quoted} (hm : m ∈ logicalLines ls) {x : Char × Bool} (hx : x ∈ m) :
    ∃ l ∈ ls, x.1 ∈ l := by
  induction ls generalizing m with
  | nil => cases hm
  | cons l ls ih =>
    rw [logicalLines] at hm
    split_ifs at hm with hl
    · cases hls : logicalLines ls with
      | nil =>
        rw [hls] at hm
        cases hm
      | cons k ks =>
        rw [hls] at hm ih
        rcases List.mem_cons.mp hm with rfl | hm
        · rcases List.mem_append.mp hx with hx | hx
          · exact ⟨l, List.mem_cons_self .., mem_unescape hx⟩
          · obtain ⟨k', hk', hmem⟩ := ih (List.mem_cons_self ..) hx
            exact ⟨k', List.mem_cons_of_mem _ hk', hmem⟩
        · obtain ⟨k', hk', hmem⟩ := ih (List.mem_cons_of_mem _ hm) hx
          exact ⟨k', List.mem_cons_of_mem _ hk', hmem⟩
    · rcases List.mem_cons.mp hm with rfl | hm
      · exact ⟨l, List.mem_cons_self .., mem_unescape hx⟩
      · obtain ⟨k', hk', hmem⟩ := ih hm hx
        exact ⟨k', List.mem_cons_of_mem _ hk', hmem⟩

theorem mem_readVars {n : ℕ} {l : Quoted} {w : Text} (hw : w ∈ readVars n l) {c : Char} (hc : c ∈ w) :
    ∃ x ∈ l, x.1 = c := by
  induction n using Nat.strong_induction_on generalizing l with
  | _ n ih =>
    match n, hw with
    | 1, hw =>
      rw [readVars, List.mem_singleton] at hw
      rw [hw] at hc
      obtain ⟨x, hx, rfl⟩ := List.mem_map.mp hc
      have hx' := (List.dropWhile_suffix _).subset (List.mem_reverse.mp hx)
      exact ⟨x, (List.dropWhile_suffix _).subset (List.mem_reverse.mp hx'), rfl⟩
    | n + 2, hw =>
      rw [readVars] at hw
      rcases List.mem_cons.mp hw with rfl | hw
      · obtain ⟨x, hx, rfl⟩ := List.mem_map.mp hc
        exact ⟨x, (List.dropWhile_suffix _).subset ((List.takeWhile_prefix _).subset hx), rfl⟩
      · obtain ⟨x, hx, rfl⟩ := ih (n + 1) (by omega) hw
        exact ⟨x, (List.dropWhile_suffix _).subset ((List.dropWhile_suffix _).subset hx), rfl⟩

end CgxLayer.Shell

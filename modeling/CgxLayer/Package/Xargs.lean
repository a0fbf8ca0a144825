import CgxLayer.TextFile

namespace CgxLayer.Package

open Text

inductive ArgState where
  | space
  | norm
  | quote (q : Char)
  | backslash
deriving DecidableEq

def argSpace (c : Char) : Bool := c.toNat ∈ [9, 10, 11, 12, 13, 32]

def argBlank (c : Char) : Bool := c = ' ' || c = '\t'

def argQuote (c : Char) : Bool := c = '\'' || c = '"'

inductive ArgMove where
  | skip (st : ArgState)
  | keep (st : ArgState)
  | endArg
  | endLine
  | unmatched
deriving DecidableEq

def wordMove (c : Char) : ArgMove :=
  if c = '\n' then .endLine
  else if argBlank c then .endArg
  else if c = '\\' then .skip .backslash
  else if argQuote c then .skip (.quote c)
  else .keep .norm

def argMove (st : ArgState) (c : Char) : ArgMove :=
  match st with
  | .space => if argSpace c then .skip .space else wordMove c
  | .norm => wordMove c
  | .quote q => if c = '\n' then .unmatched else if c = q then .skip .norm else .keep (.quote q)
  | .backslash => .keep .norm

def ArgState.inQuote : ArgState → Bool
  | .quote _ => true
  | _ => false

-- The arguments that xargs reads; an unmatched quote ends it.
def readArgs : ArgState → Text → Text → List Text
  | st, arg, [] => if st.inQuote || arg.isEmpty then [] else [arg]
  | st, arg, c :: s =>
    match argMove st c with
    | .skip st => readArgs st arg s
    | .keep st => readArgs st (arg ++ [c]) s
    | .endArg => arg :: readArgs .space [] s
    | .endLine => if arg.isEmpty then readArgs .space [] s else arg :: readArgs .space [] s
    | .unmatched => []

def xargs (text : Text) : List Text := readArgs .space [] text

def argSpecial (c : Char) : Bool := argBlank c || c = '\\' || argQuote c

def argWord (w : Text) : Prop := ∀ c ∈ w, c ≠ '\n' ∧ argSpecial c = false

theorem wordMove_word {c : Char} (hnl : c ≠ '\n') (hc : argSpecial c = false) : wordMove c = .keep .norm := by
  simp only [argSpecial, Bool.or_eq_false_iff, decide_eq_false_iff_not] at hc
  simp [wordMove, hnl, hc.1.1, hc.1.2, hc.2]

theorem readArgs_norm_word {w : Text} (hw : argWord w) (arg s : Text) :
    readArgs .norm arg (w ++ s) = readArgs .norm (arg ++ w) s := by
  induction w generalizing arg with
  | nil => rw [List.nil_append, List.append_nil]
  | cons c w ih =>
    obtain ⟨hnl, hc⟩ := hw c (List.mem_cons_self ..)
    have hmove : argMove .norm c = .keep .norm := wordMove_word hnl hc
    rw [List.cons_append, readArgs, hmove]
    exact (ih (fun d hd => hw d (List.mem_cons_of_mem _ hd)) _).trans
      (by rw [List.append_assoc, List.singleton_append])

theorem readArgs_line {c : Char} {w : Text} (hc : argSpace c = false) (hw : argWord (c :: w)) (s : Text) :
    readArgs .space [] (c :: w ++ '\n' :: s) = (c :: w) :: readArgs .space [] s := by
  obtain ⟨hnl, hspecial⟩ := hw c (List.mem_cons_self ..)
  have hmove : argMove .space c = .keep .norm := by
    rw [argMove, hc, if_neg Bool.false_ne_true]
    exact wordMove_word hnl hspecial
  have hword : readArgs .norm [c] (w ++ '\n' :: s) = readArgs .norm ([c] ++ w) ('\n' :: s) :=
    readArgs_norm_word (fun d hd => hw d (List.mem_cons_of_mem _ hd)) _ _
  rw [List.cons_append, readArgs, hmove]
  exact hword

theorem xargs_unlines {ls : List Text} (h : ∀ l ∈ ls, argWord l ∧ ∃ c w, l = c :: w ∧ argSpace c = false) :
    xargs (unlines ls) = ls := by
  induction ls with
  | nil => rfl
  | cons l ls ih =>
    obtain ⟨hword, c, w, rfl, hc⟩ := h l (List.mem_cons_self ..)
    rw [unlines_cons, List.append_assoc, List.singleton_append, xargs, readArgs_line hc hword]
    exact congrArg _ (ih fun m hm => h m (List.mem_cons_of_mem _ hm))

theorem mem_readArgs {c : Char} (st : ArgState) (arg s : Text) :
    ∀ a ∈ readArgs st arg s, c ∈ a → c ∈ arg ∨ c ∈ s := by
  fun_induction readArgs st arg s
  all_goals grind

def specials (s : Text) : ℕ := s.countP argSpecial

def firstLine (s : Text) : Text := s.takeWhile (· ≠ '\n')

theorem specials_snoc (arg : Text) (c : Char) : specials (arg ++ [c]) = specials arg + specials [c] :=
  List.countP_append

theorem specials_firstLine {c : Char} (hc : c ≠ '\n') (s : Text) :
    specials (firstLine (c :: s)) = specials [c] + specials (firstLine s) := by
  rw [firstLine, List.takeWhile_cons_of_pos (by simpa using hc), ← List.singleton_append]
  exact List.countP_append

def LinesWithin (m : ℕ) (s : Text) : Prop := ∀ u, u <:+ s → specials (firstLine u) ≤ m

theorem LinesWithin.tail {m : ℕ} {c : Char} {s : Text} (h : LinesWithin m (c :: s)) : LinesWithin m s :=
  fun u hu => h u (hu.trans (List.suffix_cons c s))

def Losing (m : ℕ) (st : ArgState) (arg s : Text) : Prop :=
  '\n' ∈ arg ∨ specials arg + specials (firstLine s) < m ∨ specials arg = 0 ∧ (st = .space ∨ st = .norm)

theorem specials_lt_of_losing {m : ℕ} {st : ArgState} {arg s : Text} (hm : 0 < m) (h : Losing m st arg s)
    (hnl : '\n' ∉ arg) : specials arg < m := by
  rcases h with h | h | ⟨h, -⟩
  · exact absurd h hnl
  · omega
  · omega

theorem losing_start (m : ℕ) (s : Text) : Losing m .space [] s := .inr (.inr ⟨rfl, .inl rfl⟩)

theorem losing_snoc {m : ℕ} {st : ArgState} {arg s : Text} {c : Char} (hc : c ≠ '\n')
    (h : '\n' ∈ arg ∨ specials arg + specials (firstLine (c :: s)) < m) : Losing m st (arg ++ [c]) s := by
  rw [specials_firstLine hc] at h
  refine h.imp (fun h => List.mem_append_left _ h) fun h => .inl ?_
  rw [specials_snoc]
  omega

theorem losing_drop {m : ℕ} {st : ArgState} {arg s : Text} {c : Char} (hc : c ≠ '\n') (hspecial : argSpecial c = true)
    (hs : LinesWithin m (c :: s)) (h : Losing m st arg (c :: s)) :
    '\n' ∈ arg ∨ specials arg + specials (firstLine s) < m := by
  have hline := specials_firstLine hc s
  have hone : specials [c] = 1 := by simp [specials, hspecial]
  have hle := hs _ List.suffix_rfl
  rcases h with h | h | ⟨h, -⟩
  · exact .inl h
  · right
    omega
  · right
    omega

theorem losing_escaped {m : ℕ} {st : ArgState} {arg s : Text} (hst : st ≠ .space ∧ st ≠ .norm)
    (h : Losing m st arg s) : '\n' ∈ arg ∨ specials arg + specials (firstLine s) < m :=
  h.imp_right fun h => h.resolve_right fun h => h.2.elim hst.1 hst.2

theorem losing_norm {m : ℕ} {st : ArgState} {arg s : Text} {c : Char} (hc : c ≠ '\n') (hspecial : argSpecial c = false)
    (h : Losing m st arg (c :: s)) : Losing m .norm (arg ++ [c]) s := by
  have hzero : specials [c] = 0 := by simp [specials, hspecial]
  rcases h with h | h | ⟨h, -⟩
  · exact losing_snoc hc (.inl h)
  · exact losing_snoc hc (.inr h)
  · right
    right
    refine ⟨?_, .inr rfl⟩
    rw [specials_snoc, h, hzero]

theorem wordMove_skip {c : Char} {st : ArgState} (h : wordMove c = .skip st) :
    c ≠ '\n' ∧ argSpecial c = true ∧ st ≠ .space := by
  rw [wordMove] at h
  split_ifs at h with hnl hblank hback hquote
  · cases h
    exact ⟨hnl, by simp [argSpecial, hback], by simp⟩
  · cases h
    exact ⟨hnl, by simp [argSpecial, hquote], by simp⟩

theorem wordMove_keep {c : Char} {st : ArgState} (h : wordMove c = .keep st) :
    c ≠ '\n' ∧ argSpecial c = false ∧ st = .norm := by
  rw [wordMove] at h
  split_ifs at h with hnl hblank hback hquote
  cases h
  exact ⟨hnl, by simp [argSpecial, hblank, hback, hquote], rfl⟩

theorem losing_skip {m : ℕ} {st st' : ArgState} {arg s : Text} {c : Char} (hs : LinesWithin m (c :: s))
    (hstart : st = .space → arg = []) (h : Losing m st arg (c :: s)) (hmove : argMove st c = .skip st') :
    (st' = .space → arg = []) ∧ Losing m st' arg s := by
  have hword (hmove : wordMove c = .skip st') : (st' = .space → arg = []) ∧ Losing m st' arg s := by
    obtain ⟨hnl, hspecial, hst⟩ := wordMove_skip hmove
    exact ⟨fun heq => absurd heq hst, (losing_drop hnl hspecial hs h).imp_right .inl⟩
  cases st with
  | space =>
    rw [argMove] at hmove
    split_ifs at hmove
    · cases hmove
      rw [hstart rfl]
      exact ⟨fun _ => rfl, losing_start m s⟩
    · exact hword hmove
  | norm => exact hword hmove
  | quote q =>
    rw [argMove] at hmove
    split_ifs at hmove with hnl hq
    cases hmove
    have hline := specials_firstLine hnl s
    have hlose := losing_escaped ⟨by simp, by simp⟩ h
    refine ⟨by simp, hlose.imp_right fun h => .inl ?_⟩
    omega
  | backslash => cases hmove

theorem losing_keep {m : ℕ} {st st' : ArgState} {arg s : Text} {c : Char} (h : Losing m st arg (c :: s))
    (hmove : argMove st c = .keep st') : st' ≠ .space ∧ Losing m st' (arg ++ [c]) s := by
  have hword (hmove : wordMove c = .keep st') : st' ≠ .space ∧ Losing m st' (arg ++ [c]) s := by
    obtain ⟨hnl, hspecial, rfl⟩ := wordMove_keep hmove
    exact ⟨by simp, losing_norm hnl hspecial h⟩
  cases st with
  | space =>
    rw [argMove] at hmove
    split_ifs at hmove
    exact hword hmove
  | norm => exact hword hmove
  | quote q =>
    rw [argMove] at hmove
    split_ifs at hmove with hnl
    cases hmove
    exact ⟨by simp, losing_snoc hnl (losing_escaped ⟨by simp, by simp⟩ h)⟩
  | backslash =>
    cases hmove
    refine ⟨by simp, ?_⟩
    by_cases hc : c = '\n'
    · exact .inl (List.mem_append_right _ (List.mem_singleton.mpr hc.symm))
    · exact losing_snoc hc (losing_escaped ⟨by simp, by simp⟩ h)

theorem specials_readArgs {m : ℕ} (hm : 0 < m) (st : ArgState) (arg s : Text) (hs : LinesWithin m s)
    (hstart : st = .space → arg = []) (h : Losing m st arg s) :
    ∀ a ∈ readArgs st arg s, '\n' ∉ a → specials a < m := by
  induction s generalizing st arg with
  | nil =>
    intro a ha hnl
    rw [readArgs] at ha
    split_ifs at ha
    · cases ha
    · rw [List.mem_singleton.mp ha] at hnl ⊢
      exact specials_lt_of_losing hm h hnl
  | cons c s ih =>
    have hnext := ih .space [] hs.tail (fun _ => rfl) (losing_start m s)
    have hend : ∀ a ∈ arg :: readArgs .space [] s, '\n' ∉ a → specials a < m :=
      List.forall_mem_cons.mpr ⟨specials_lt_of_losing hm h, hnext⟩
    rw [readArgs]
    cases hmove : argMove st c with
    | skip st' =>
      obtain ⟨hst, hlose⟩ := losing_skip hs hstart h hmove
      exact ih st' arg hs.tail hst hlose
    | keep st' =>
      obtain ⟨hst, hlose⟩ := losing_keep h hmove
      exact ih st' _ hs.tail (fun heq => absurd heq hst) hlose
    | endArg => exact hend
    | endLine =>
      dsimp only
      split_ifs
      · exact hnext
      · exact hend
    | unmatched => simp

theorem linesWithin_line {m : ℕ} {l : Text} (hnl : '\n' ∉ l) (hle : specials l ≤ m) {s : Text} (hs : LinesWithin m s) :
    LinesWithin m (l ++ '\n' :: s) := by
  induction l with
  | nil =>
    intro u hu
    rcases List.suffix_cons_iff.mp hu with rfl | hu
    · exact Nat.zero_le m
    · exact hs u hu
  | cons c l ih =>
    rw [List.mem_cons, not_or] at hnl
    intro u hu
    rcases List.suffix_cons_iff.mp hu with rfl | hu
    · have hline : firstLine ((c :: l) ++ '\n' :: s) = c :: l := by
        rw [firstLine, List.takeWhile_append_of_pos, List.takeWhile_cons_of_neg (by simp), List.append_nil]
        intro d hd
        rw [decide_eq_true_eq]
        rintro rfl
        exact (List.mem_cons.mp hd).elim hnl.1 hnl.2
      exact (congrArg specials hline).trans_le hle
    · have hshort : specials l ≤ specials (c :: l) := List.Sublist.countP_le (List.sublist_cons_self c l)
      exact ih hnl.2 (hshort.trans hle) u hu

theorem linesWithin_unlines {m : ℕ} {ls : List Text} (h : ∀ l ∈ ls, '\n' ∉ l ∧ specials l ≤ m) :
    LinesWithin m (unlines ls) := by
  induction ls with
  | nil =>
    intro u hu
    rw [List.suffix_nil.mp hu]
    exact Nat.zero_le m
  | cons l ls ih =>
    obtain ⟨⟨hnl, hle⟩, hrest⟩ := List.forall_mem_cons.mp h
    rw [unlines_cons, List.append_assoc, List.singleton_append]
    exact linesWithin_line hnl hle (ih hrest)

theorem specials_xargs {m : ℕ} (hm : 0 < m) {ls : List Text} (h : ∀ l ∈ ls, '\n' ∉ l ∧ specials l ≤ m) :
    ∀ a ∈ xargs (unlines ls), '\n' ∉ a → specials a < m :=
  specials_readArgs hm _ _ _ (linesWithin_unlines h) (fun _ => rfl) (losing_start m _)

end CgxLayer.Package

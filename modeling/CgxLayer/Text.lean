import Mathlib.Data.List.Infix
import Mathlib.Data.List.Sort
import Mathlib.Data.List.Lex
import Mathlib.Data.Char
import Mathlib.Data.List.Dedup
import Mathlib.Data.List.TakeWhile

namespace CgxLayer

abbrev Text := List Char

namespace Text

instance (priority := high) {s : Text} {p : Char → Prop} [DecidablePred p] : Decidable (∀ c ∈ s, p c) :=
  List.decidableBAll p s

instance (priority := high) (s : Text) (ws : List Text) : Decidable (s ∈ ws) :=
  List.instDecidableMemOfLawfulBEq s ws

def pyBlank (c : Char) : Bool :=
  c.toNat ∈ [9, 10, 11, 12, 13, 28, 29, 30, 31, 32, 133, 160, 5760, 8232, 8233, 8239, 8287, 12288] ||
    (8192 ≤ c.toNat && c.toNat ≤ 8202)

def shBlank (c : Char) : Bool := c == ' ' || c == '\t' || c == '\n'

def words (blank : Char → Bool) (s : Text) : List Text :=
  (s.splitOnP blank).filter (fun w => !w.isEmpty)

def strip (blank : Char → Bool) (s : Text) : Text :=
  ((s.dropWhile blank).reverse.dropWhile blank).reverse

def startsWith (pre s : Text) : Bool := pre.isPrefixOf s

def splitFirst (sep : Char) : Text → Option (Text × Text)
  | [] => none
  | c :: s => if c = sep then some ([], s) else (splitFirst sep s).map (fun p => (c :: p.1, p.2))

def joinWith (sep : Char) (ws : List Text) : Text := [sep].intercalate ws

def decimal (n : ℕ) : Text := Nat.toDigits 10 n

def sorted (xs : List Text) : List Text := xs.insertionSort (· ≤ ·)

def IsWord (blank : Char → Bool) (w : Text) : Prop := w ≠ [] ∧ ∀ c ∈ w, blank c = false

instance (blank : Char → Bool) (w : Text) : Decidable (IsWord blank w) := inferInstanceAs (Decidable (_ ∧ _))

variable {blank : Char → Bool}

@[simp] theorem words_nil : words blank [] = [] := by simp [words]

theorem words_append_blank (s t : Text) {c : Char} (hc : blank c = true) :
    words blank (s ++ c :: t) = words blank s ++ words blank t := by
  simp [words, List.splitOnP_append_cons s t hc]

theorem words_cons_blank (s : Text) {c : Char} (hc : blank c = true) :
    words blank (c :: s) = words blank s := by
  simpa using words_append_blank [] s hc

theorem words_word {w : Text} (hw : IsWord blank w) : words blank w = [w] := by
  simp [words, List.splitOnP_eq_singleton hw.2, hw.1]

theorem words_word_blank {w : Text} (hw : IsWord blank w) (s : Text) {c : Char}
    (hc : blank c = true) : words blank (w ++ c :: s) = w :: words blank s := by
  rw [words_append_blank _ _ hc, words_word hw, List.singleton_append]

theorem joinWith_cons_cons (sep : Char) (w v : Text) (vs : List Text) :
    joinWith sep (w :: v :: vs) = w ++ sep :: joinWith sep (v :: vs) := by
  simp [joinWith, List.intercalate_cons_cons]

theorem joinWith_singleton (sep : Char) (w : Text) : joinWith sep [w] = w := by simp [joinWith]

theorem joinWith_concat (sep : Char) {ws : List Text} (hws : ws ≠ []) (w : Text) :
    joinWith sep (ws ++ [w]) = joinWith sep ws ++ sep :: w := by
  induction ws with
  | nil => exact absurd rfl hws
  | cons v vs ih =>
    cases vs with
    | nil => rw [List.singleton_append, joinWith_cons_cons, joinWith_singleton, joinWith_singleton]
    | cons u us =>
      rw [List.cons_append, List.cons_append, joinWith_cons_cons, joinWith_cons_cons, ← List.cons_append,
        ih (List.cons_ne_nil u us), List.append_assoc, List.cons_append]

theorem mem_joinWith {sep c : Char} {ws : List Text} (hc : c ∈ joinWith sep ws) :
    c = sep ∨ ∃ w ∈ ws, c ∈ w := by
  induction ws with
  | nil => simp [joinWith] at hc
  | cons w ws ih =>
    cases ws with
    | nil =>
      rw [joinWith_singleton] at hc
      exact .inr ⟨w, List.mem_singleton_self w, hc⟩
    | cons v vs =>
      rw [joinWith_cons_cons] at hc
      obtain hc | hc := List.mem_append.mp hc
      · exact .inr ⟨w, List.mem_cons_self .., hc⟩
      · obtain hc | hc := List.mem_cons.mp hc
        · exact .inl hc
        · obtain hsep | ⟨u, hu, hcu⟩ := ih hc
          · exact .inl hsep
          · exact .inr ⟨u, List.mem_cons_of_mem _ hu, hcu⟩

theorem words_joinWith {sep : Char} (hsep : blank sep = true) (ws : List Text)
    (hws : ∀ w ∈ ws, IsWord blank w) : words blank (joinWith sep ws) = ws := by
  induction ws with
  | nil => simp [joinWith]
  | cons w ws ih =>
    cases ws with
    | nil => simpa only [joinWith_singleton] using words_word (hws w (by simp))
    | cons v vs =>
      have htail := ih (fun u hu => hws u (List.mem_cons_of_mem _ hu))
      rw [joinWith_cons_cons, words_word_blank (hws w (by simp)) _ hsep, htail]

theorem flatMap_joinWith (sep : Char) (w : Text) (ws : List Text) :
    (w :: ws).flatMap (fun w => sep :: w) = sep :: joinWith sep (w :: ws) := by
  induction ws generalizing w with
  | nil => simp [joinWith_singleton]
  | cons v vs ih => rw [List.flatMap_cons, ih, joinWith_cons_cons, List.cons_append]

theorem words_flatMap {sep : Char} (hsep : blank sep = true) (ws : List Text)
    (hws : ∀ w ∈ ws, IsWord blank w) : words blank (ws.flatMap (fun w => sep :: w)) = ws := by
  cases ws with
  | nil => simp
  | cons w ws => rw [flatMap_joinWith, words_cons_blank _ hsep, words_joinWith hsep _ hws]

theorem words_of_blank {s : Text} (hs : ∀ c ∈ s, blank c = true) : words blank s = [] := by
  induction s with
  | nil => exact words_nil
  | cons c s ih =>
    rw [words_cons_blank s (hs c (List.mem_cons_self ..))]
    exact ih (fun d hd => hs d (List.mem_cons_of_mem _ hd))

theorem words_append_of_blank (s : Text) {t : Text} (ht : ∀ c ∈ t, blank c = true) :
    words blank (s ++ t) = words blank s := by
  cases t with
  | nil => rw [List.append_nil]
  | cons c t =>
    rw [words_append_blank s t (ht c (List.mem_cons_self ..)),
      words_of_blank (fun d hd => ht d (List.mem_cons_of_mem _ hd)), List.append_nil]

theorem words_dropWhile (s : Text) : words blank (s.dropWhile blank) = words blank s := by
  induction s with
  | nil => rfl
  | cons c s ih =>
    cases hc : blank c with
    | true => rw [List.dropWhile_cons_of_pos hc, ih, words_cons_blank s hc]
    | false => rw [List.dropWhile_cons_of_neg (by simp [hc])]

theorem strip_append (s : Text) : ∃ t, s.dropWhile blank = strip blank s ++ t ∧ ∀ c ∈ t, blank c = true := by
  refine ⟨((s.dropWhile blank).reverse.takeWhile blank).reverse, ?_, ?_⟩
  · rw [strip, ← List.reverse_append, List.takeWhile_append_dropWhile, List.reverse_reverse]
  · intro c hc
    exact List.mem_takeWhile_imp (List.mem_reverse.mp hc)

theorem words_strip (s : Text) : words blank (strip blank s) = words blank s := by
  obtain ⟨t, hsplit, ht⟩ := @strip_append blank s
  rw [← words_dropWhile s, hsplit]
  exact (words_append_of_blank _ ht).symm

theorem strip_between {pre mid post : Text} (hpre : ∀ c ∈ pre, blank c = true)
    (hpost : ∀ c ∈ post, blank c = true) (hne : mid ≠ []) (hhead : ∀ c ∈ mid.head?, blank c = false)
    (hlast : ∀ c ∈ mid.getLast?, blank c = false) : strip blank (pre ++ (mid ++ post)) = mid := by
  have hstart : (mid ++ post).dropWhile blank = mid ++ post := by
    cases mid with
    | nil => exact absurd rfl hne
    | cons c mid => exact List.dropWhile_cons_of_neg (by simp [hhead c rfl])
  have hend : mid.reverse.dropWhile blank = mid.reverse := by
    cases hrev : mid.reverse with
    | nil => rfl
    | cons c rest =>
      apply List.dropWhile_cons_of_neg
      have hc : c ∈ mid.getLast? := by rw [← List.head?_reverse, hrev, List.head?_cons, Option.mem_some_iff]
      simp [hlast c hc]
  rw [strip, List.dropWhile_append_of_pos hpre, hstart, List.reverse_append,
    List.dropWhile_append_of_pos (fun c hc => hpost c (List.mem_reverse.mp hc)), hend, List.reverse_reverse]

theorem blank_of_strip_cons {s t : Text} {c : Char} (h : strip blank s = c :: t) : blank c = false := by
  obtain ⟨u, hsplit, -⟩ := @strip_append blank s
  have hhead := List.head?_dropWhile_not blank s
  rw [hsplit, h] at hhead
  simpa using hhead

theorem words_cons_nonblank (s : Text) {c : Char} (hc : blank c = false) :
    ∃ w ws, words blank (c :: s) = (c :: w) :: ws := by
  obtain ⟨w, ws, hsplit⟩ : ∃ w ws, s.splitOnP blank = w :: ws :=
    List.exists_cons_of_ne_nil (List.splitOnP_ne_nil blank s)
  refine ⟨w, ws.filter (fun w => !w.isEmpty), ?_⟩
  simp [words, List.splitOnP_cons_eq_if_modifyHead, hc, hsplit]

theorem takeWhile_append_cons {p : Char → Bool} {c : Char} (hc : p c = false) (a b : Text) :
    (a ++ c :: b).takeWhile p = a.takeWhile p := by
  induction a with
  | nil => exact List.takeWhile_cons_of_neg (by rw [hc]; exact Bool.false_ne_true)
  | cons d a ih =>
    rw [List.cons_append, List.takeWhile_cons, List.takeWhile_cons, ih]

theorem splitFirst_none {sep : Char} {s : Text} : splitFirst sep s = none ↔ sep ∉ s := by
  induction s with
  | nil => simp [splitFirst]
  | cons c s ih =>
    simp only [splitFirst, List.mem_cons, not_or]
    split_ifs with hc
    · simp [hc]
    · simp [ih, Ne.symm hc]

theorem splitFirst_append {sep : Char} (s t : Text) (hs : sep ∉ s) :
    splitFirst sep (s ++ sep :: t) = some (s, t) := by
  induction s with
  | nil => simp [splitFirst]
  | cons c s ih =>
    have hc : c ≠ sep := fun h => hs (h ▸ List.mem_cons_self ..)
    have ht : sep ∉ s := fun h => hs (List.mem_cons_of_mem _ h)
    simp [splitFirst, hc, ih ht]

theorem startsWith_iff {pre s : Text} : startsWith pre s = true ↔ pre <+: s := by
  simp [startsWith]

theorem isDigit_of_mem_decimal {n : ℕ} {c : Char} (hc : c ∈ decimal n) : c.isDigit = true :=
  Nat.isDigit_of_mem_toDigits (by omega) (by omega) hc

theorem decimal_injective {m n : ℕ} (h : decimal m = decimal n) : m = n := by
  have hm := Nat.ofDigitChars_ten_toDigits (n := m)
  have hn := Nat.ofDigitChars_ten_toDigits (n := n)
  rw [decimal, decimal] at h
  rw [← hm, ← hn, h]

def Printable (s : Text) : Prop := ∀ c ∈ s, 33 ≤ c.toNat ∧ c.toNat ≤ 126

instance (s : Text) : Decidable (Printable s) := inferInstanceAs (Decidable (∀ c ∈ s, _))

theorem printable_append {s t : Text} : Printable (s ++ t) ↔ Printable s ∧ Printable t := by
  exact List.forall_mem_append

theorem printable_cons {c : Char} {s : Text} :
    Printable (c :: s) ↔ (33 ≤ c.toNat ∧ c.toNat ≤ 126) ∧ Printable s := by
  simp [Printable]

theorem pyBlank_of_printable {c : Char} (h : 33 ≤ c.toNat) (h' : c.toNat ≤ 126) :
    pyBlank c = false := by
  simp only [pyBlank, List.mem_cons, List.not_mem_nil, or_false, Bool.or_eq_false_iff,
    decide_eq_false_iff_not, Bool.and_eq_false_iff]
  omega

theorem toNat_of_isDigit {c : Char} (h : c.isDigit = true) : 48 ≤ c.toNat ∧ c.toNat ≤ 57 := by
  simpa [Char.isDigit, UInt32.le_iff_toNat_le] using h

theorem toNat_of_isLower {c : Char} (h : c.isLower = true) : 97 ≤ c.toNat ∧ c.toNat ≤ 122 := by
  have hbounds : (c.val ≥ 'a'.val && c.val ≤ 'z'.val) = true := h
  simpa [UInt32.le_iff_toNat_le] using hbounds

theorem toNat_of_isUpper {c : Char} (h : c.isUpper = true) : 65 ≤ c.toNat ∧ c.toNat ≤ 90 := by
  have hbounds : c.val ≥ 'A'.val ∧ c.val ≤ 'Z'.val := of_decide_eq_true h
  simpa [UInt32.le_iff_toNat_le] using hbounds

theorem toNat_of_isAlphanum {c : Char} (h : c.isAlphanum = true) : 48 ≤ c.toNat ∧ c.toNat ≤ 122 := by
  rcases Bool.or_eq_true_iff.mp h with h | h
  · rcases Bool.or_eq_true_iff.mp h with h | h
    · have hupper := toNat_of_isUpper h
      omega
    · have hlower := toNat_of_isLower h
      omega
  · have hdigit := toNat_of_isDigit h
    omega

theorem printable_decimal (n : ℕ) : Printable (decimal n) := by
  intro c hc
  have := toNat_of_isDigit (isDigit_of_mem_decimal hc)
  omega

theorem isWord_of_printable {s : Text} (hne : s ≠ []) (h : Printable s) : IsWord pyBlank s :=
  ⟨hne, fun c hc => pyBlank_of_printable (h c hc).1 (h c hc).2⟩

@[simp] theorem mem_sorted {xs : List Text} {x : Text} : x ∈ sorted xs ↔ x ∈ xs :=
  List.mem_insertionSort _

theorem sorted_perm (xs : List Text) : (sorted xs).Perm xs := List.perm_insertionSort _ xs

theorem sorted_pairwise (xs : List Text) : (sorted xs).Pairwise (· ≤ ·) :=
  List.pairwise_insertionSort _ xs

theorem le_append (s t : Text) : s ≤ s ++ t := by
  induction s with
  | nil =>
    cases t with
    | nil => exact le_rfl
    | cons c t => exact le_of_lt List.Lex.nil
  | cons c s ih => exact List.cons_le_cons c ih

theorem sorted_of_perm {xs ys : List Text} (h : xs.Perm ys) : sorted xs = sorted ys := by
  apply List.Perm.eq_of_pairwise' (sorted_pairwise xs) (sorted_pairwise ys)
  exact (sorted_perm xs).trans (h.trans (sorted_perm ys).symm)

theorem sorted_of_pairwise {xs : List Text} (h : xs.Pairwise (· ≤ ·)) : sorted xs = xs :=
  List.Perm.eq_of_pairwise' (sorted_pairwise xs) h (sorted_perm xs)

def dropRepeats : List Text → List Text
  | [] => []
  | [d] => [d]
  | d :: e :: ds => if d = e then dropRepeats (d :: ds) else d :: dropRepeats (e :: ds)
termination_by ds => ds.length

theorem mem_dropRepeats (x : Text) (ds : List Text) : x ∈ dropRepeats ds ↔ x ∈ ds := by
  induction ds using dropRepeats.induct with
  | case1 => simp [dropRepeats]
  | case2 d => simp [dropRepeats]
  | case3 e ds ih => simp [dropRepeats, ih]
  | case4 d e ds hne ih => simp [dropRepeats, hne, ih]

theorem dropRepeats_sorted {ds : List Text} (h : ds.Pairwise (· ≤ ·)) :
    (dropRepeats ds).Pairwise (· < ·) := by
  induction ds using dropRepeats.induct with
  | case1 => simp [dropRepeats]
  | case2 d => simp [dropRepeats]
  | case3 e ds ih =>
    rw [dropRepeats, if_pos rfl]
    exact ih (List.Pairwise.of_cons h)
  | case4 d e ds hne ih =>
    rw [dropRepeats, if_neg hne]
    refine List.pairwise_cons.mpr ⟨fun x hx => ?_, ih (List.Pairwise.of_cons h)⟩
    have hde : d < e := lt_of_le_of_ne (List.rel_of_pairwise_cons h (List.mem_cons_self ..)) hne
    rcases List.mem_cons.mp ((mem_dropRepeats x _).mp hx) with rfl | hx
    · exact hde
    · exact hde.trans_le (List.rel_of_pairwise_cons (List.Pairwise.of_cons h) hx)

def sortUniq (xs : List Text) : List Text := dropRepeats (sorted xs)

theorem mem_sortUniq {xs : List Text} {x : Text} : x ∈ sortUniq xs ↔ x ∈ xs := by
  rw [sortUniq, mem_dropRepeats, mem_sorted]

theorem sortUniq_pairwise (xs : List Text) : (sortUniq xs).Pairwise (· < ·) :=
  dropRepeats_sorted (sorted_pairwise xs)

theorem sortUniq_nodup (xs : List Text) : (sortUniq xs).Nodup :=
  (sortUniq_pairwise xs).imp (fun h => h.ne)

end Text

end CgxLayer

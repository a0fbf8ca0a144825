import CgxLayer.Text
import Mathlib.Data.List.TakeWhile

namespace CgxLayer.Ramdisk

open Text

def dots : Text := ['.', '.']

-- The match of `\/[^\/][^\/]*\/\.\.` at the start of a text: what follows it.
def cutHere : Text → Option Text
  | '/' :: s =>
    let rest := s.dropWhile (· != '/')
    if !(s.takeWhile (· != '/')).isEmpty && startsWith ('/' :: dots) rest then some (rest.drop 3) else none
  | _ => none

-- `sed 's/\/[^\/][^\/]*\/\.\.//'`
def sedDotDot : Text → Text
  | [] => []
  | c :: s =>
    match cutHere (c :: s) with
    | some rest => rest
    | none => c :: sedDotDot s

/-- `remove_dot_dot`; `none` when sed finds nothing more to remove and the loop never ends. -/
def removeDotDot (v : Text) : Option Text :=
  if dots <:+: v then
    if (sedDotDot v).length < v.length then removeDotDot (sedDotDot v) else none
  else some v
termination_by v.length

def dirname (s : Text) : Text :=
  let d := ((s.reverse.dropWhile (· != '/')).dropWhile (· == '/')).reverse
  if d.isEmpty then ['/'] else d

def components (s : Text) : List Text := (s.splitOnP (· == '/')).tail

def render (cs : List Text) : Text := cs.flatMap (fun c => '/' :: c)

def pushComponent (st : List Text) (c : Text) : List Text :=
  if c = dots then
    match st with
    | [] => []
    | d :: ds => if d = [] then d :: ds else ds
  else c :: st

def lexical (s : Text) : Text := render (((components s).foldl pushComponent []).reverse)

/-- Components as they occur in names: only the first may be empty, and none but `..` itself
begins with two periods. -/
structure Tame (cs : List Text) : Prop where
  plain : ∀ c ∈ cs, '/' ∉ c
  dotted : ∀ c ∈ cs, startsWith dots c = true → c = dots
  nonempty : ∀ c ∈ cs.tail, c ≠ []

def cutPair : List Text → List Text
  | [] => []
  | [c] => [c]
  | c :: d :: cs => if c ≠ [] ∧ d = dots then cs else c :: cutPair (d :: cs)

theorem render_cons (c : Text) (cs : List Text) : render (c :: cs) = '/' :: (c ++ render cs) := by
  simp [render]

theorem render_append (cs ds : List Text) : render (cs ++ ds) = render cs ++ render ds :=
  List.flatMap_append

theorem joinWith_slash (cs : List Text) (hcs : cs ≠ []) : '/' :: joinWith '/' cs = render cs := by
  induction cs with
  | nil => exact absurd rfl hcs
  | cons c cs ih =>
    cases cs with
    | nil => simp [joinWith_singleton, render]
    | cons d ds => rw [joinWith_cons_cons, ih (List.cons_ne_nil d ds), render_cons c]

theorem splitOnP_render (c : Text) (cs : List Text) (hc : '/' ∉ c) (hcs : ∀ d ∈ cs, '/' ∉ d) :
    (c ++ render cs).splitOnP (· == '/') = c :: cs := by
  have hsingle : ∀ d : Text, '/' ∉ d → d.splitOnP (· == '/') = [d] := by
    intro d hd
    apply List.splitOnP_eq_singleton
    intro x hx
    rw [beq_eq_false_iff_ne]
    exact fun h => hd (h ▸ hx)
  induction cs generalizing c with
  | nil => simpa [render] using hsingle c hc
  | cons d cs ih =>
    rw [render_cons, List.splitOnP_append_cons c _ (by simp), hsingle c hc,
      ih d (hcs d (List.mem_cons_self ..)) (fun e he => hcs e (List.mem_cons_of_mem _ he)),
      List.singleton_append]

theorem components_render (cs : List Text) (hcs : ∀ c ∈ cs, '/' ∉ c) : components (render cs) = cs := by
  cases cs with
  | nil => rfl
  | cons c cs =>
    have hnil : (render (c :: cs)).splitOnP (· == '/') = [] :: c :: cs :=
      splitOnP_render [] (c :: cs) (List.not_mem_nil) hcs
    rw [components, hnil, List.tail_cons]

theorem takeWhile_render (c : Text) (cs : List Text) (hc : '/' ∉ c) :
    (c ++ render cs).takeWhile (· != '/') = c ∧ (c ++ render cs).dropWhile (· != '/') = render cs := by
  have hall : ∀ x ∈ c, (x != '/') = true := by
    intro x hx
    rw [bne_iff_ne]
    exact fun h => hc (h ▸ hx)
  have hstop : (render cs).takeWhile (· != '/') = [] ∧ (render cs).dropWhile (· != '/') = render cs := by
    cases cs with
    | nil => exact ⟨rfl, rfl⟩
    | cons d ds =>
      rw [render_cons]
      exact ⟨rfl, rfl⟩
  constructor
  · rw [List.takeWhile_append_of_pos hall, hstop.1, List.append_nil]
  · rw [List.dropWhile_append_of_pos hall, hstop.2]

theorem startsWith_slash_dots (d : Text) (ds : List Text) :
    startsWith ('/' :: dots) (render (d :: ds)) = startsWith dots d := by
  rw [render_cons]
  match d with
  | [] => cases ds <;> simp [startsWith, dots, render, List.isPrefixOf]
  | [a] => cases ds <;> simp [startsWith, dots, render, List.isPrefixOf]
  | a :: b :: d => simp [startsWith, dots, List.isPrefixOf]

theorem cutHere_render {c : Text} (cs : List Text) (hc : '/' ∉ c) : cutHere (render (c :: cs)) =
    if !c.isEmpty && startsWith ('/' :: dots) (render cs) then some ((render cs).drop 3) else none := by
  obtain ⟨htake, hdrop⟩ := takeWhile_render c cs hc
  rw [render_cons, cutHere, htake, hdrop]

theorem sedDotDot_append (c : Text) (s : Text) (hc : '/' ∉ c) : sedDotDot (c ++ s) = c ++ sedDotDot s := by
  induction c with
  | nil => rfl
  | cons x c ih =>
    rw [List.mem_cons, not_or] at hc
    have hnone : cutHere (x :: (c ++ s)) = none := by
      unfold cutHere
      split
      · rename_i heq
        exact absurd (List.cons.inj heq).1.symm hc.1
      · rfl
    rw [List.cons_append, sedDotDot, hnone, ih hc.2]
    rfl

theorem sedDotDot_render (cs : List Text) (h : Tame cs) : sedDotDot (render cs) = render (cutPair cs) := by
  induction cs with
  | nil => rfl
  | cons c cs ih =>
    have hc := h.plain c (List.mem_cons_self ..)
    have htail : Tame cs := ⟨fun d hd => h.plain d (List.mem_cons_of_mem _ hd),
      fun d hd => h.dotted d (List.mem_cons_of_mem _ hd), fun d hd => h.nonempty d (List.mem_of_mem_tail hd)⟩
    have hskip : cutHere (render (c :: cs)) = none → sedDotDot (render (c :: cs)) = render (c :: cutPair cs) := by
      intro hnone
      rw [render_cons] at hnone ⊢
      rw [sedDotDot, hnone, sedDotDot_append c _ hc, ih htail, render_cons]
    have hcut := cutHere_render cs hc
    cases cs with
    | nil =>
      rw [hskip (by rw [hcut]; simp [render, startsWith, dots])]
      rfl
    | cons d ds =>
      have hd : startsWith ('/' :: dots) (render (d :: ds)) = true ↔ d = dots := by
        rw [startsWith_slash_dots]
        exact ⟨h.dotted d (by simp), fun heq => by rw [heq]; rfl⟩
      by_cases hpair : c ≠ [] ∧ d = dots
      · have hsome : cutHere (render (c :: d :: ds)) = some (render ds) := by
          rw [hcut, hd.mpr hpair.2, hpair.2, render_cons]
          simp [hpair.1, dots]
        rw [cutPair, if_pos hpair]
        rw [render_cons] at hsome ⊢
        rw [sedDotDot, hsome]
      · have hnone : cutHere (render (c :: d :: ds)) = none := by
          rw [hcut, if_neg]
          rw [Bool.and_eq_true, hd]
          simpa using hpair
        rw [hskip hnone, cutPair, if_neg hpair]

theorem foldl_cutPair (cs st : List Text) (hne : ∀ c ∈ cs.tail, c ≠ [])
    (hdots : cs.head? = some dots → st = [] ∨ st = [[]]) (hnil : cs.head? = some [] → st = []) :
    (cutPair cs).foldl pushComponent st = cs.foldl pushComponent st := by
  induction cs generalizing st with
  | nil => rfl
  | cons c cs ih =>
    cases cs with
    | nil => rfl
    | cons d ds =>
      have hd : d ≠ [] := hne d (by simp)
      rw [cutPair]
      split_ifs with hpair
      · obtain ⟨hc, rfl⟩ := hpair
        rw [List.foldl_cons, List.foldl_cons]
        by_cases hcd : c = dots
        · rcases hdots (by rw [hcd]; rfl) with rfl | rfl <;> simp [pushComponent, hcd]
        · simp [pushComponent, hcd, hc]
      · rw [List.foldl_cons, List.foldl_cons]
        apply ih _ (fun e he => hne e (by simp [List.mem_of_mem_tail he]))
        · intro hhead
          obtain rfl : d = dots := Option.some.inj hhead
          have hc : c = [] := by
            by_contra hc
            exact hpair ⟨hc, rfl⟩
          right
          rw [hnil (by rw [hc]; rfl), hc]
          rfl
        · intro hhead
          exact absurd (Option.some.inj hhead) hd

theorem mem_cutPair {c : Text} {cs : List Text} (h : c ∈ cutPair cs) : c ∈ cs := by
  induction cs using cutPair.induct with
  | case1 => exact h
  | case2 d => exact h
  | case3 d e cs hpair =>
    rw [cutPair, if_pos hpair] at h
    exact List.mem_cons_of_mem _ (List.mem_cons_of_mem _ h)
  | case4 d e cs hpair ih =>
    rw [cutPair, if_neg hpair] at h
    rcases List.mem_cons.mp h with rfl | h
    · exact List.mem_cons_self ..
    · exact List.mem_cons_of_mem _ (ih h)

theorem mem_tail_cutPair {c : Text} {cs : List Text} (h : c ∈ (cutPair cs).tail) : c ∈ cs.tail := by
  match cs with
  | [] => exact h
  | [d] => exact h
  | d :: e :: cs =>
    rw [cutPair] at h
    split_ifs at h
    · exact List.mem_cons_of_mem _ (List.mem_of_mem_tail h)
    · exact mem_cutPair h

theorem tame_cutPair {cs : List Text} (h : Tame cs) : Tame (cutPair cs) :=
  ⟨fun c hc => h.plain c (mem_cutPair hc), fun c hc => h.dotted c (mem_cutPair hc),
    fun c hc => h.nonempty c (mem_tail_cutPair hc)⟩

theorem foldl_pushComponent (cs st : List Text) (h : dots ∉ cs) :
    cs.foldl pushComponent st = cs.reverse ++ st := by
  induction cs generalizing st with
  | nil => rfl
  | cons c cs ih =>
    rw [List.mem_cons, not_or] at h
    have hpush : pushComponent st c = c :: st := if_neg (Ne.symm h.1)
    rw [List.foldl_cons, ih _ h.2, hpush, List.reverse_cons, List.append_assoc]
    rfl

theorem lexical_render (cs : List Text) (h : Tame cs) :
    lexical (render cs) = render ((cs.foldl pushComponent []).reverse) := by
  rw [lexical, components_render cs h.plain]

theorem dots_infix_render {cs : List Text} (h : dots ∈ cs) : dots <:+: render cs := by
  obtain ⟨pre, post, rfl⟩ := List.append_of_mem h
  refine ⟨render pre ++ ['/'], render post, ?_⟩
  rw [render_append, render_cons]
  simp

theorem removeDotDot_eq {cs : List Text} (h : Tame cs) {w : Text}
    (hw : removeDotDot (render cs) = some w) : w = lexical (render cs) := by
  induction hn : (render cs).length using Nat.strong_induction_on generalizing cs with
  | _ n ih =>
    rw [removeDotDot] at hw
    rw [lexical_render cs h]
    split_ifs at hw with hdots hshort
    · rw [sedDotDot_render cs h] at hw hshort
      have hfold : (cutPair cs).foldl pushComponent [] = cs.foldl pushComponent [] := by
        apply foldl_cutPair cs [] h.nonempty
        · exact fun _ => .inl rfl
        · exact fun _ => rfl
      rw [ih _ (hn ▸ hshort) (tame_cutPair h) hw rfl, lexical_render _ (tame_cutPair h), hfold]
    · obtain rfl := Option.some.inj hw
      rw [foldl_pushComponent cs [] (fun hmem => hdots (dots_infix_render hmem)), List.append_nil,
        List.reverse_reverse]

theorem lastComponent_dropped (c : Text) (cs : List Text) (hc : '/' ∉ c) :
    (render (cs ++ [c])).reverse.dropWhile (· != '/') = '/' :: (render cs).reverse := by
  have hall : ∀ x ∈ c.reverse, (x != '/') = true := by
    intro x hx
    rw [bne_iff_ne]
    exact fun h => hc (h ▸ List.mem_reverse.mp hx)
  have hrev : (render (cs ++ [c])).reverse = c.reverse ++ '/' :: (render cs).reverse := by
    simp [render]
  rw [hrev, List.dropWhile_append_of_pos hall]
  rfl

theorem dirname_root (c : Text) (cs : List Text) (hc : '/' ∉ c) (hcs : cs = [] ∨ cs = [[]]) :
    dirname (render (cs ++ [c])) = ['/'] := by
  rw [dirname, lastComponent_dropped c cs hc]
  rcases hcs with rfl | rfl <;> rfl

theorem dirname_deep (c x : Text) (pre : List Text) (hc : '/' ∉ c) (hx : '/' ∉ x) (hne : x ≠ []) :
    dirname (render (pre ++ [x] ++ [c])) = render (pre ++ [x]) := by
  have hlast : ∃ y ys, x.reverse = y :: ys ∧ y ≠ '/' := by
    obtain ⟨y, ys, hy⟩ := List.exists_cons_of_ne_nil (mt List.reverse_eq_nil_iff.mp hne)
    exact ⟨y, ys, hy, fun h => hx (List.mem_reverse.mp (by rw [hy, h]; exact List.mem_cons_self ..))⟩
  obtain ⟨y, ys, hy, hslash⟩ := hlast
  have hrev : (render (pre ++ [x])).reverse = y :: (ys ++ '/' :: (render pre).reverse) := by
    rw [render_append, List.reverse_append]
    simp [render, hy]
  have hstop : (y == '/') = false := beq_eq_false_iff_ne.mpr hslash
  have hdrop : ('/' :: (render (pre ++ [x])).reverse).dropWhile (· == '/') =
      (render (pre ++ [x])).reverse := by
    rw [hrev]
    simp [hstop]
  have hfull : (render (pre ++ [x])).isEmpty = false := by simp [render]
  rw [dirname, lastComponent_dropped c _ hc, hdrop, List.reverse_reverse, hfull]
  rfl

theorem dirname_join (cs rs : List Text) (c : Text) (h : Tame (cs ++ [c])) (hrs : rs ≠ []) :
    ∃ ds : List Text, dirname (render (cs ++ [c])) ++ '/' :: joinWith '/' rs = render (ds ++ rs) ∧
      (ds = [[]] ∨ ds = cs) := by
  have hc := h.plain c (by simp)
  rw [joinWith_slash rs hrs]
  rcases List.eq_nil_or_concat cs with rfl | ⟨pre, x, rfl⟩
  · exact ⟨[[]], by rw [dirname_root c [] hc (.inl rfl)]; rfl, .inl rfl⟩
  · rw [List.concat_eq_append] at h ⊢
    by_cases hne : x = []
    · obtain rfl : pre = [] := by
        cases pre with
        | nil => rfl
        | cons y ys => exact absurd hne (h.nonempty x (by simp))
      exact ⟨[[]], by rw [hne, List.nil_append, dirname_root c _ hc (.inr rfl)]; rfl, .inl rfl⟩
    · refine ⟨pre ++ [x], ?_, .inr rfl⟩
      rw [dirname_deep c x pre hc (h.plain x (by simp)) hne, render_append (pre ++ [x])]

end CgxLayer.Ramdisk

import CgxLayer.Ramdisk.Links
import CgxLayer.TextFile
import Mathlib.Data.List.Infix

namespace CgxLayer.Ramdisk

open Text

/-- A component that sed takes for `..` without its being one. -/
def Dotted (c : Text) : Prop := startsWith dots c = true ∧ c ≠ dots

instance (c : Text) : Decidable (Dotted c) := inferInstanceAs (Decidable (_ ∧ _))

theorem components_cons (s : Text) : components ('/' :: s) = s.splitOn '/' := by
  have hsplit : ([] ++ '/' :: s).splitOn '/' = ([] : Text).splitOn '/' ++ s.splitOn '/' :=
    List.splitOn_append_cons_self [] s
  change (([] ++ '/' :: s).splitOn '/').tail = _
  rw [hsplit]
  rfl

theorem render_components {v : Text} (h : ['/'] <+: v) : render (components v) = v := by
  obtain ⟨s, rfl⟩ := h
  rw [List.singleton_append, components_cons, ← joinWith_slash _ (List.splitOn_ne_nil _ _), joinWith,
    List.intercalate_splitOn]

theorem slash_not_mem_components {v : Text} (h : ['/'] <+: v) : ∀ c ∈ components v, '/' ∉ c := by
  obtain ⟨s, rfl⟩ := h
  intro c hc
  rw [List.singleton_append, components_cons] at hc
  exact not_mem_of_mem_splitOn hc

theorem sedDotDot_skip {c : Text} {cs : List Text} (hc : '/' ∉ c)
    (h : c = [] ∨ ∀ d ∈ cs.head?, startsWith dots d = false) :
    sedDotDot (render (c :: cs)) = render [c] ++ sedDotDot (render cs) := by
  have hnone : cutHere (render (c :: cs)) = none := by
    rw [cutHere_render cs hc, if_neg]
    rintro hcut
    rw [Bool.and_eq_true] at hcut
    rcases h with rfl | hhead
    · cases hcut.1
    · cases cs with
      | nil => cases hcut.2
      | cons d ds =>
        rw [startsWith_slash_dots, hhead d rfl] at hcut
        cases hcut.2
  rw [render_cons] at hnone ⊢
  rw [sedDotDot, hnone]
  simp only [sedDotDot_append c _ hc]
  simp [render]

theorem sedDotDot_cut {t : Text} (ht : '/' ∉ t) (hne : t ≠ []) (cs : List Text) :
    sedDotDot (render (t :: dots :: cs)) = render cs := by
  have hsome : cutHere (render (t :: dots :: cs)) = some (render cs) := by
    rw [cutHere_render _ ht, startsWith_slash_dots, render_cons]
    simp [hne, startsWith, dots]
  rw [render_cons] at hsome ⊢
  rw [sedDotDot, hsome]

def Kept : List Text → Prop
  | [] => True
  | d :: st => (∀ c ∈ st.head?, c = [] ∨ startsWith dots d = false) ∧ Kept st

theorem sedDotDot_kept {st cs : List Text} (hplain : ∀ c ∈ st, '/' ∉ c) (hst : Kept st)
    (h : ∀ t ∈ st.head?, t = [] ∨ ∀ d ∈ cs.head?, startsWith dots d = false) :
    sedDotDot (render (st.reverse ++ cs)) = render st.reverse ++ sedDotDot (render cs) := by
  induction st generalizing cs with
  | nil => rfl
  | cons t st ih =>
    rw [List.forall_mem_cons] at hplain
    have hadjacent : ∀ u ∈ st.head?, u = [] ∨ ∀ d ∈ (t :: cs).head?, startsWith dots d = false := by
      intro u hu
      refine (hst.1 u hu).imp_right fun hdots d hd => ?_
      cases hd
      exact hdots
    have hstep := ih hplain.2 hst.2 hadjacent
    rw [List.reverse_cons, List.append_assoc, List.singleton_append, hstep, sedDotDot_skip hplain.1 (h t rfl),
      render_append, List.append_assoc]

theorem infix_append_of_slash (c : Text) {s : Text} (hs : s = [] ∨ s.head? = some '/') :
    dots <:+: c ++ s ↔ dots <:+: c ∨ dots <:+: s := by
  induction c with
  | nil => simp [dots]
  | cons x c ih =>
    have hprefix : dots <+: x :: (c ++ s) ↔ dots <+: x :: c := by
      cases c with
      | nil =>
        rcases hs with rfl | hs
        · rfl
        · obtain ⟨u, rfl⟩ := List.head?_eq_some_iff.mp hs
          simp [dots]
      | cons y c => simp [dots]
    rw [List.cons_append, List.infix_cons_iff, List.infix_cons_iff, ih, hprefix, or_assoc]

theorem dots_infix_render_iff (cs : List Text) : dots <:+: render cs ↔ ∃ c ∈ cs, dots <:+: c := by
  induction cs with
  | nil => simp [render, dots]
  | cons c cs ih =>
    have hrest : render cs = [] ∨ (render cs).head? = some '/' := by
      cases cs with
      | nil => exact .inl rfl
      | cons d ds =>
        rw [render_cons]
        exact .inr rfl
    have hslash : ¬ dots <+: '/' :: (c ++ render cs) := by
      intro h
      cases List.head_eq_of_cons_eq (List.prefix_iff_eq_append.mp h)
    rw [render_cons, List.infix_cons_iff, or_iff_right hslash, infix_append_of_slash c hrest, ih,
      List.exists_mem_cons_iff]

-- one component of the path, when sed takes back the component before it or finds none to take back
def pushCut (st : List Text) (c : Text) : List Text :=
  if c = dots then
    match st with
    | [] => [dots]
    | d :: ds => if d = [] then dots :: d :: ds else ds
  else c :: st

theorem pushCut_name {c : Text} (hc : c ≠ dots) (st : List Text) : pushCut st c = c :: st := if_neg hc

theorem pushCut_up {t : Text} (ht : t ≠ []) (st : List Text) : pushCut (t :: st) dots = st :=
  (if_pos rfl).trans (if_neg ht)

theorem pushCut_blocked {st : List Text} (h : ∀ t ∈ st.head?, t = []) : pushCut st dots = dots :: st := by
  cases st with
  | nil => rfl
  | cons t st =>
    rw [h t rfl]
    rfl

theorem pushCut_cases (st : List Text) (c : Text) :
    (pushCut st c = c :: st ∧ (c = dots → ∀ t ∈ st.head?, t = [])) ∨
      ∃ t ts, t ≠ [] ∧ st = t :: ts ∧ c = dots ∧ pushCut st c = ts := by
  by_cases hc : c = dots
  · subst hc
    by_cases hblocked : ∀ t ∈ st.head?, t = []
    · exact .inl ⟨pushCut_blocked hblocked, fun _ => hblocked⟩
    · cases st with
      | nil => exact absurd (fun _ ht => by cases ht) hblocked
      | cons t ts =>
        have ht : t ≠ [] := by
          rintro rfl
          exact hblocked (fun _ hu => (Option.some_inj.mp hu).symm)
        exact .inr ⟨t, ts, ht, rfl, rfl, pushCut_up ht ts⟩
  · exact .inl ⟨pushCut_name hc st, fun heq => absurd heq hc⟩

theorem mem_pushCut {st : List Text} {c x : Text} (h : x ∈ pushCut st c) : x = c ∨ x ∈ st := by
  rcases pushCut_cases st c with ⟨hpush, -⟩ | ⟨t, ts, -, rfl, -, hcut⟩
  · rw [hpush] at h
    exact List.mem_cons.mp h
  · rw [hcut] at h
    exact .inr (List.mem_cons_of_mem _ h)

theorem kept_pushCut {st : List Text} {c : Text} (hkept : Kept st) (hc : Dotted c → ∀ t ∈ st.head?, t = []) :
    Kept (pushCut st c) := by
  rcases pushCut_cases st c with ⟨hpush, hblocked⟩ | ⟨t, ts, -, rfl, -, hcut⟩
  · rw [hpush]
    refine ⟨fun t ht => ?_, hkept⟩
    by_cases hdotted : startsWith dots c = true
    · left
      by_cases hdots : c = dots
      · exact hblocked hdots t ht
      · exact hc ⟨hdotted, hdots⟩ t ht
    · exact .inr (Bool.eq_false_of_not_eq_true hdotted)
  · rw [hcut]
    exact hkept.2

def NoGlue (st cs : List Text) : Prop :=
  ∀ xs c ys, cs = xs ++ c :: ys → Dotted c → ∀ t ∈ (xs.foldl pushCut st).head?, t = []

theorem NoGlue.tail {st : List Text} {c : Text} {cs : List Text} (h : NoGlue st (c :: cs)) :
    NoGlue (pushCut st c) cs := by
  intro xs d ys hcs
  exact h (c :: xs) d ys (by rw [hcs, List.cons_append])

theorem removeDotDot_cut {v w : Text} (hdots : dots <:+: v) (hsed : sedDotDot v = w) (hshort : w.length < v.length) :
    removeDotDot v = removeDotDot w := by
  rw [removeDotDot, if_pos hdots, hsed, if_pos hshort]

theorem removeDotDot_step {st : List Text} (hst : ∀ c ∈ st, '/' ∉ c) (hkept : Kept st) (c : Text) (cs : List Text) :
    removeDotDot (render (st.reverse ++ c :: cs)) = removeDotDot (render ((pushCut st c).reverse ++ cs)) := by
  rcases pushCut_cases st c with ⟨hpush, -⟩ | ⟨t, ts, ht, rfl, rfl, hcut⟩
  · rw [hpush, List.reverse_cons, List.append_assoc, List.singleton_append]
  · rw [List.forall_mem_cons] at hst
    have hhead : ∀ u ∈ ts.head?, u = [] ∨ ∀ d ∈ (t :: dots :: cs).head?, startsWith dots d = false := by
      intro u hu
      refine (hkept.1 u hu).imp_right fun hdots d hd => ?_
      cases hd
      exact hdots
    have hsed : sedDotDot (render ((t :: ts).reverse ++ dots :: cs)) = render (ts.reverse ++ cs) := by
      rw [List.reverse_cons, List.append_assoc, List.singleton_append, sedDotDot_kept hst.2 hkept.2 hhead,
        sedDotDot_cut hst.1 ht, render_append]
    have hshort : (render (ts.reverse ++ cs)).length < (render ((t :: ts).reverse ++ dots :: cs)).length := by
      simp only [render, List.flatMap_append, List.flatMap_cons, List.length_append, List.reverse_cons,
        List.flatMap_nil, List.length_cons, List.length_nil]
      omega
    have hdots : dots <:+: render ((t :: ts).reverse ++ dots :: cs) :=
      dots_infix_render (List.mem_append_right _ (List.mem_cons_self ..))
    rw [hcut]
    exact removeDotDot_cut hdots hsed hshort

theorem removeDotDot_run {st cs : List Text} (hst : ∀ c ∈ st, '/' ∉ c) (hcs : ∀ c ∈ cs, '/' ∉ c) (hkept : Kept st)
    (hglue : NoGlue st cs) :
    removeDotDot (render (st.reverse ++ cs)) = removeDotDot (render (cs.foldl pushCut st).reverse) ∧
      Kept (cs.foldl pushCut st) := by
  induction cs generalizing st with
  | nil =>
    rw [List.append_nil, List.foldl_nil]
    exact ⟨rfl, hkept⟩
  | cons c cs ih =>
    rw [List.forall_mem_cons] at hcs
    have hplain : ∀ x ∈ pushCut st c, '/' ∉ x := by
      intro x hx
      rcases mem_pushCut hx with rfl | hx
      · exact hcs.1
      · exact hst x hx
    rw [removeDotDot_step hst hkept]
    exact ih hplain hcs.2 (kept_pushCut hkept (hglue [] c cs rfl)) hglue.tail

theorem removeDotDot_kept {st : List Text} (hst : ∀ c ∈ st, '/' ∉ c) (hkept : Kept st) :
    removeDotDot (render st.reverse) = if ∃ c ∈ st, dots <:+: c then none else some (render st.reverse) := by
  have hid : sedDotDot (render st.reverse) = render st.reverse := by
    have hnone : ∀ t ∈ st.head?, t = [] ∨ ∀ d ∈ ([] : List Text).head?, startsWith dots d = false :=
      fun t _ => .inr (by simp)
    have hsed := sedDotDot_kept hst hkept hnone
    rw [List.append_nil] at hsed
    rw [hsed]
    exact List.append_nil _
  have hdots : dots <:+: render st.reverse ↔ ∃ c ∈ st, dots <:+: c := by
    rw [dots_infix_render_iff]
    simp only [List.mem_reverse]
  rw [removeDotDot, hid, if_neg (Nat.lt_irrefl _)]
  by_cases h : ∃ c ∈ st, dots <:+: c
  · rw [if_pos h, if_pos (hdots.mpr h)]
  · rw [if_neg h, if_neg (mt hdots.mp h)]

end CgxLayer.Ramdisk

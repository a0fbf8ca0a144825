import CgxLayer.Ramdisk.DotDot
import Mathlib.Algebra.Group.Nat.Even

namespace CgxLayer.Ramdisk

open Text

/-- A link that process_tmp_file follows: the absolute path it is at, and its relative target. -/
structure Link where
  bin : Text
  target : Text
  absolute : ['/'] <+: bin
  relative : target ≠ [] ∧ ¬ ['/'] <+: target

-- `$(dirname $bin)/$l`
def Link.path (k : Link) : Text := dirname k.bin ++ '/' :: k.target

/-- The components of a link's path, the first of which is empty when the link is at the root. -/
def Link.cs (k : Link) : List Text := components k.path

def resolveComponent (st : List Text) (c : Text) : List Text :=
  if c = [] then st else if c = dots then st.tail else c :: st

def resolved (cs : List Text) : List Text := cs.foldl resolveComponent []

def names (s : Text) : List Text := (components s).filter (fun c => !c.isEmpty)

/-- What is returned is the absolute path of the names that are left, each `..` having taken back
the one before it. -/
def Resolves (k : Link) : Prop :=
  ∃ w, removeDotDot k.path = some w ∧ ['/'] <+: w ∧ names w = (resolved k.cs).reverse

def left (cs : List Text) : List Text := cs.foldl pushComponent []

def rootUps (cs : List Text) : ℕ :=
  (cs.foldl (fun s c => (pushComponent s.1 c, if c = dots ∧ s.1.all List.isEmpty then s.2 + 1 else s.2))
    (([] : List Text), 0)).2

/-- A `..` comes right after a name or when no name is left, the latter in pairs that no empty
component parts, a name that begins with two periods does not come right after a component, and
what is left is no empty text and has no two periods together. -/
structure Settled (cs : List Text) : Prop where
  taken : ∀ xs ys, cs = xs ++ dots :: ys → (left xs).head? = some [] → ∀ c ∈ left xs, c = []
  paired : ∀ xs ys, cs = xs ++ ys → (ys = [] ∨ ys.head? = some []) → Even (rootUps xs)
  dotted : ∀ xs c ys, cs = xs ++ c :: ys → Dotted c → (left xs = [] ∨ (left xs).head? = some []) ∧ Even (rootUps xs)
  remains : left cs ≠ [] ∧ ∀ c ∈ left cs, ¬ dots <:+: c

/-- What sed has kept, what is left of the path, and the names among it, after the same components. -/
structure InStep (kept st ns : List Text) (n : ℕ) : Prop where
  names : ns = st.filter (fun c => !c.isEmpty)
  noUp : dots ∉ st
  even : Even n → kept = st
  odd : ¬ Even n → ∃ as es, kept = as ++ dots :: es ∧ st = as ++ es ∧ (∀ a ∈ as, a ≠ []) ∧ ∀ e ∈ es, e = []

theorem left_concat (xs : List Text) (c : Text) : left (xs ++ [c]) = pushComponent (left xs) c := List.foldl_concat ..

theorem resolved_concat (xs : List Text) (c : Text) : resolved (xs ++ [c]) = resolveComponent (resolved xs) c :=
  List.foldl_concat ..

theorem rootUps_concat (xs : List Text) (c : Text) :
    rootUps (xs ++ [c]) = if c = dots ∧ (left xs).all List.isEmpty then rootUps xs + 1 else rootUps xs := by
  have hfst : ∀ s : List Text × ℕ, (xs.foldl (fun s c => (pushComponent s.1 c,
      if c = dots ∧ s.1.all List.isEmpty then s.2 + 1 else s.2)) s).1 = xs.foldl pushComponent s.1 := by
    induction xs with
    | nil => exact fun _ => rfl
    | cons x xs ih => exact fun s => ih _
  rw [rootUps, List.foldl_concat, hfst]
  rfl

def keptBySed (cs : List Text) : List Text := cs.foldl pushCut []

theorem keptBySed_concat (xs : List Text) (c : Text) : keptBySed (xs ++ [c]) = pushCut (keptBySed xs) c :=
  List.foldl_concat ..

theorem pushComponent_name {c : Text} (hc : c ≠ dots) (st : List Text) : pushComponent st c = c :: st := if_neg hc

theorem pushComponent_up {t : Text} (ht : t ≠ []) (st : List Text) : pushComponent (t :: st) dots = st :=
  (if_pos rfl).trans (if_neg ht)

theorem pushComponent_blocked {st : List Text} (h : ∀ t ∈ st.head?, t = []) : pushComponent st dots = st := by
  cases st with
  | nil => rfl
  | cons t st =>
    rw [h t rfl]
    rfl

theorem dots_ne_nil : dots ≠ [] := List.cons_ne_nil _ _

theorem resolveComponent_nil (ns : List Text) : resolveComponent ns [] = ns := rfl

theorem resolveComponent_up (ns : List Text) : resolveComponent ns dots = ns.tail := rfl

theorem resolveComponent_name {c : Text} (hnil : c ≠ []) (hc : c ≠ dots) (ns : List Text) :
    resolveComponent ns c = c :: ns := by
  rw [resolveComponent, if_neg hnil, if_neg hc]

theorem all_isEmpty {st : List Text} : st.all List.isEmpty = true ↔ ∀ c ∈ st, c = [] := by
  simp

theorem inStep_nil : InStep [] [] [] 0 :=
  ⟨rfl, List.not_mem_nil, fun _ => rfl, fun h => absurd Even.zero h⟩

variable {kept st ns : List Text} {n : ℕ}

theorem InStep.push {c : Text} (h : InStep kept st ns n) (hc : c ≠ dots) (hpaired : c = [] → Even n) :
    InStep (pushCut kept c) (pushComponent st c) (resolveComponent ns c) n := by
  rw [pushCut_name hc, pushComponent_name hc]
  refine ⟨?_, ?_, fun heven => ?_, fun hodd => ?_⟩
  · by_cases hnil : c = []
    · rw [hnil, resolveComponent_nil, h.names]
      rfl
    · rw [resolveComponent_name hnil hc, h.names, List.filter_cons_of_pos (by simpa using hnil)]
  · rw [List.mem_cons, not_or]
    exact ⟨Ne.symm hc, h.noUp⟩
  · rw [h.even heven]
  · obtain ⟨as, es, hkept, hst, has, hes⟩ := h.odd hodd
    refine ⟨c :: as, es, by rw [hkept]; rfl, by rw [hst]; rfl, ?_, hes⟩
    exact List.forall_mem_cons.mpr ⟨fun hnil => hodd (hpaired hnil), has⟩

theorem InStep.up {t : Text} (h : InStep kept (t :: st) ns n) (ht : t ≠ []) :
    InStep (pushCut kept dots) st (resolveComponent ns dots) n := by
  have hnames : resolveComponent ns dots = st.filter (fun c => !c.isEmpty) := by
    rw [resolveComponent_up, h.names, List.filter_cons_of_pos (by simpa using ht), List.tail_cons]
  refine ⟨hnames, fun hmem => h.noUp (List.mem_cons_of_mem _ hmem), fun heven => ?_, fun hodd => ?_⟩
  · rw [h.even heven, pushCut_up ht]
  · obtain ⟨as, es, hkept, hst, has, hes⟩ := h.odd hodd
    cases as with
    | nil =>
      rw [List.nil_append] at hst
      exact absurd (hes t (by rw [← hst]; exact List.mem_cons_self ..)) ht
    | cons a as =>
      obtain ⟨rfl, rfl⟩ := List.cons.inj hst
      rw [List.forall_mem_cons] at has
      exact ⟨as, es, by rw [hkept, List.cons_append, pushCut_up ht], rfl, has.2, hes⟩

theorem InStep.rootUp (h : InStep kept st ns n) (hst : ∀ c ∈ st, c = []) :
    InStep (pushCut kept dots) st (resolveComponent ns dots) (n + 1) := by
  have hnil : ns = [] := by
    rw [h.names, List.filter_eq_nil_iff]
    intro c hc
    simp [hst c hc]
  have hnames : resolveComponent ns dots = st.filter (fun c => !c.isEmpty) := by
    rw [← h.names, hnil]
    rfl
  refine ⟨hnames, h.noUp, fun heven => ?_, fun hodd => ?_⟩
  · rw [Nat.even_add_one] at heven
    obtain ⟨as, es, hkept, hst', has, hes⟩ := h.odd heven
    cases as with
    | nil => rw [hkept, hst', List.nil_append, pushCut_up dots_ne_nil, List.nil_append]
    | cons a as => exact absurd (hst a (hst' ▸ List.mem_cons_self ..)) (has a (List.mem_cons_self ..))
  · rw [Nat.even_add_one, not_not] at hodd
    have hhead : ∀ t ∈ st.head?, t = [] := fun t ht => hst t (List.mem_of_mem_head? ht)
    exact ⟨[], st, by rw [h.even hodd, pushCut_blocked hhead]; rfl, rfl, fun _ ha => absurd ha List.not_mem_nil, hst⟩

def InStepAfter (xs : List Text) : Prop := InStep (keptBySed xs) (left xs) (resolved xs) (rootUps xs)

theorem inStepAfter_concat {xs : List Text} {c : Text} (h : InStepAfter xs)
    (htaken : c = dots → (left xs).head? = some [] → ∀ d ∈ left xs, d = []) (hpaired : c = [] → Even (rootUps xs)) :
    InStepAfter (xs ++ [c]) := by
  rw [InStepAfter, keptBySed_concat, left_concat, resolved_concat, rootUps_concat]
  by_cases hc : c = dots
  · subst hc
    by_cases hroot : ∀ d ∈ left xs, d = []
    · rw [if_pos ⟨rfl, all_isEmpty.mpr hroot⟩, pushComponent_blocked (fun t ht => hroot t (List.mem_of_mem_head? ht))]
      exact h.rootUp hroot
    · rw [if_neg (fun hand => hroot (all_isEmpty.mp hand.2))]
      cases hleft : left xs with
      | nil =>
        rw [hleft] at hroot
        exact absurd (fun _ hd => absurd hd List.not_mem_nil) hroot
      | cons t st =>
        have ht : t ≠ [] := by
          rintro rfl
          exact hroot (htaken rfl (by rw [hleft]; rfl))
        rw [pushComponent_up ht]
        have hstep : InStep (keptBySed xs) (t :: st) (resolved xs) (rootUps xs) := hleft ▸ h
        exact hstep.up ht
  · rw [if_neg (fun hand => hc hand.1)]
    exact InStep.push h hc hpaired

theorem inStepAfter_prefix {cs : List Text}
    (htaken : ∀ xs ys, cs = xs ++ dots :: ys → InStepAfter xs → (left xs).head? = some [] → ∀ d ∈ left xs, d = [])
    (hpaired : ∀ xs ys, cs = xs ++ [] :: ys → InStepAfter xs → Even (rootUps xs)) :
    ∀ xs ys, cs = xs ++ ys → InStepAfter xs := by
  intro xs
  induction xs using List.reverseRecOn with
  | nil => exact fun _ _ => inStep_nil
  | append_singleton xs c ih =>
    intro ys hcs
    rw [List.append_assoc, List.singleton_append] at hcs
    have hxs := ih _ hcs
    apply inStepAfter_concat hxs
    · rintro rfl
      exact htaken xs ys hcs hxs
    · rintro rfl
      exact hpaired xs ys hcs hxs

theorem mem_foldl_pushCut {c : Text} {st cs : List Text} (h : c ∈ cs.foldl pushCut st) : c ∈ st ∨ c ∈ cs := by
  induction cs generalizing st with
  | nil => exact .inl h
  | cons d cs ih =>
    rcases ih h with hmem | hmem
    · rcases mem_pushCut hmem with rfl | hmem
      · exact .inr (List.mem_cons_self ..)
      · exact .inl hmem
    · exact .inr (List.mem_cons_of_mem _ hmem)

theorem dirname_absolute {s : Text} (h : ['/'] <+: s) : ['/'] <+: dirname s := by
  rw [dirname]
  split_ifs with hd
  · exact List.prefix_rfl
  · have hprefix : ((s.reverse.dropWhile (· != '/')).dropWhile (· == '/')).reverse <+: s := by
      rw [← List.reverse_suffix, List.reverse_reverse]
      exact (List.dropWhile_suffix _).trans (List.dropWhile_suffix _)
    apply List.prefix_of_prefix_length_le h hprefix
    rw [List.length_singleton, Nat.one_le_iff_ne_zero, ne_eq, List.length_eq_zero_iff]
    simpa using hd

theorem Link.path_absolute (k : Link) : ['/'] <+: k.path :=
  (dirname_absolute k.absolute).trans (List.prefix_append _ _)

structure Right (cs : List Text) : Prop where
  nonempty : keptBySed cs ≠ []
  noDots : ∀ c ∈ keptBySed cs, ¬ dots <:+: c
  names : (keptBySed cs).filter (fun c => !c.isEmpty) = resolved cs

theorem resolves_iff_right (k : Link) (hglue : NoGlue [] k.cs) : Resolves k ↔ Right k.cs := by
  have habs := k.path_absolute
  have hplain : ∀ c ∈ k.cs, '/' ∉ c := slash_not_mem_components habs
  have hkept : ∀ c ∈ keptBySed k.cs, '/' ∉ c := by
    intro c hc
    rcases mem_foldl_pushCut hc with hc | hc
    · exact absurd hc List.not_mem_nil
    · exact hplain c hc
  have hrun : removeDotDot k.path =
      if ∃ c ∈ keptBySed k.cs, dots <:+: c then none else some (render (keptBySed k.cs).reverse) := by
    obtain ⟨hsame, hchain⟩ := removeDotDot_run (fun _ hc => absurd hc List.not_mem_nil) hplain trivial hglue
    rw [← removeDotDot_kept hkept hchain, keptBySed, ← hsame, List.reverse_nil, List.nil_append, Link.cs,
      render_components habs]
  have hnames : names (render (keptBySed k.cs).reverse) = ((keptBySed k.cs).filter (fun c => !c.isEmpty)).reverse := by
    rw [names, components_render _ (fun c hc => hkept c (List.mem_reverse.mp hc)), List.filter_reverse]
  constructor
  · rintro ⟨w, hw, hstart, hw'⟩
    rw [hrun] at hw
    split_ifs at hw with hdots
    cases hw
    refine ⟨?_, fun c hc hmem => hdots ⟨c, hc, hmem⟩, ?_⟩
    · intro hnil
      rw [hnil] at hstart
      cases hstart.length_le
    · rw [hnames] at hw'
      exact List.reverse_injective hw'
  · intro h
    refine ⟨render (keptBySed k.cs).reverse, ?_, ?_, ?_⟩
    · rw [hrun, if_neg (fun ⟨c, hc, hmem⟩ => h.noDots c hc hmem)]
    · cases hcons : (keptBySed k.cs).reverse with
      | nil => exact absurd (List.reverse_eq_nil_iff.mp hcons) h.nonempty
      | cons c cs =>
        rw [render_cons]
        exact ⟨_, rfl⟩
    · rw [hnames, h.names]

theorem right_of_settled {cs : List Text} (h : Settled cs) : NoGlue [] cs ∧ Right cs := by
  have hstep : ∀ xs ys, cs = xs ++ ys → InStepAfter xs :=
    inStepAfter_prefix (fun xs ys hcs _ => h.taken xs ys hcs) (fun xs _ hcs _ => h.paired xs _ hcs (.inr rfl))
  constructor
  · intro xs c ys hcs hdotted t ht
    obtain ⟨hhead, heven⟩ := h.dotted xs c ys hcs hdotted
    have hsame : xs.foldl pushCut [] = left xs := (hstep xs _ hcs).even heven
    rw [hsame] at ht
    rcases hhead with hnil | hhead
    · rw [hnil] at ht
      cases ht
    · rw [hhead] at ht
      exact (Option.some_inj.mp ht).symm
  · have hlast := hstep cs [] (List.append_nil cs).symm
    have hsame := hlast.even (h.paired cs [] (List.append_nil cs).symm (.inl rfl))
    refine ⟨?_, ?_, ?_⟩
    · rw [hsame]
      exact h.remains.1
    · rw [hsame]
      exact h.remains.2
    · rw [hsame, hlast.names]

theorem pushCut_above (as bs : List Text) (c : Text) : ∃ as', pushCut (as ++ [] :: bs) c = as' ++ [] :: bs := by
  rcases pushCut_cases (as ++ [] :: bs) c with ⟨hpush, -⟩ | ⟨t, ts, ht, heq, -, hcut⟩
  · exact ⟨c :: as, hpush⟩
  · cases as with
    | nil => exact absurd (List.cons.inj heq).1.symm ht
    | cons a as => exact ⟨as, hcut.trans (List.cons.inj heq).2.symm⟩

theorem foldl_pushCut_above (cs as bs : List Text) : ∃ as', cs.foldl pushCut (as ++ [] :: bs) = as' ++ [] :: bs := by
  induction cs generalizing as with
  | nil => exact ⟨as, rfl⟩
  | cons c cs ih =>
    obtain ⟨as', has'⟩ := pushCut_above as bs c
    rw [List.foldl_cons, has']
    exact ih as'

def ordinary (c : Text) : Bool := !c.isEmpty && c != dots

def Stopped (bs : List Text) : Prop :=
  (∀ b ∈ bs.head?, b = []) ∨ ∃ bs', bs = dots :: bs' ∧ ∀ b ∈ bs'.head?, b = []

def Behind (kept ns : List Text) : Prop :=
  ∃ as bs, kept = as ++ bs ∧ (∀ a ∈ as, ordinary a = true) ∧ Stopped bs ∧ as.length ≤ ns.length ∧
    ns.length < kept.countP ordinary

theorem behind_of_stopped (hkept : Stopped kept) (hlt : ns.length < kept.countP ordinary) : Behind kept ns :=
  ⟨[], kept, rfl, fun _ ha => absurd ha List.not_mem_nil, hkept, Nat.zero_le _, hlt⟩

theorem behind_push {c : Text} (h : Behind kept ns) (hc : c ≠ dots) : Behind (c :: kept) (resolveComponent ns c) := by
  obtain ⟨as, bs, rfl, has, hbs, hle, hlt⟩ := h
  by_cases hnil : c = []
  · subst hnil
    have hstopped : Stopped ([] :: (as ++ bs)) := .inl (by simp)
    apply behind_of_stopped hstopped
    rw [resolveComponent_nil, List.countP_cons_of_neg (by decide)]
    exact hlt
  · have hord : ordinary c = true := by simp [ordinary, hnil, hc]
    rw [resolveComponent_name hnil hc]
    refine ⟨c :: as, bs, rfl, List.forall_mem_cons.mpr ⟨hord, has⟩, hbs, Nat.succ_le_succ hle, ?_⟩
    rw [List.countP_cons_of_pos hord]
    exact Nat.succ_lt_succ hlt

theorem behind_up (h : Behind kept ns) : Behind (pushCut kept dots) (resolveComponent ns dots) := by
  obtain ⟨as, bs, rfl, has, hbs, hle, hlt⟩ := h
  have hshorter : (resolveComponent ns dots).length = ns.length - 1 := List.length_tail
  cases as with
  | nil =>
    rw [List.nil_append] at hlt ⊢
    rcases hbs with hblocked | ⟨bs', rfl, hblocked⟩
    · rw [pushCut_blocked hblocked]
      apply behind_of_stopped (.inr ⟨bs, rfl, hblocked⟩)
      rw [List.countP_cons_of_neg (by decide)]
      omega
    · rw [pushCut_up dots_ne_nil]
      apply behind_of_stopped (.inl hblocked)
      rw [List.countP_cons_of_neg (by decide)] at hlt
      omega
  | cons a as =>
    rw [List.forall_mem_cons] at has
    have ha : a ≠ [] := by
      rintro rfl
      cases has.1
    rw [List.cons_append, pushCut_up ha]
    rw [List.cons_append, List.countP_cons_of_pos has.1] at hlt
    rw [List.length_cons] at hle
    exact ⟨as, bs, rfl, has.2, hbs, by omega, by omega⟩

theorem behind_step {c : Text} (h : Behind kept ns) : Behind (pushCut kept c) (resolveComponent ns c) := by
  by_cases hc : c = dots
  · rw [hc]
    exact behind_up h
  · rw [pushCut_name hc]
    exact behind_push h hc

theorem behind_foldl {cs : List Text} (h : Behind kept ns) :
    Behind (cs.foldl pushCut kept) (cs.foldl resolveComponent ns) := by
  induction cs generalizing kept ns with
  | nil => exact h
  | cons c cs ih => exact ih (behind_step h)

theorem countP_ordinary (h : dots ∉ st) : st.countP ordinary = (st.filter (fun c => !c.isEmpty)).length := by
  rw [← List.countP_eq_length_filter]
  apply List.countP_congr
  intro c hc
  have hne : c ≠ dots := by
    rintro rfl
    exact h hc
  simp [ordinary, hne]

theorem not_right_of_behind {cs : List Text} (h : Behind (keptBySed cs) (resolved cs)) : ¬ Right cs := by
  intro hright
  obtain ⟨_, _, _, _, _, _, hlt⟩ := h
  have hup : dots ∉ keptBySed cs := fun hmem => hright.noDots _ hmem List.infix_rfl
  have hcount := countP_ordinary hup
  rw [hright.names] at hcount
  omega

variable {xs ys cs : List Text}

theorem InStep.even_of_head (h : InStep kept st ns n) (hhead : st.head? = some [])
    (hname : ∃ c ∈ st, c ≠ []) : Even n := by
  by_contra hodd
  obtain ⟨as, es, -, rfl, has, hes⟩ := h.odd hodd
  cases as with
  | nil =>
    obtain ⟨c, hc, hne⟩ := hname
    exact hne (hes c hc)
  | cons a as =>
    cases hhead
    exact has [] (List.mem_cons_self ..) rfl

theorem taken_of_right (hcs : cs = xs ++ dots :: ys) (h : InStepAfter xs) (hright : Right cs)
    (hhead : (left xs).head? = some []) : ∀ c ∈ left xs, c = [] := by
  by_contra hname
  push Not at hname
  have hkept : keptBySed xs = left xs := h.even (h.even_of_head hhead hname)
  have hlen : (resolved xs).length = (left xs).countP ordinary := by
    rw [h.names, countP_ordinary h.noUp]
  have hpos : 0 < (resolved xs).length := by
    obtain ⟨c, hc, hne⟩ := hname
    rw [h.names, List.length_pos_iff_exists_mem]
    exact ⟨c, List.mem_filter.mpr ⟨hc, by simpa using hne⟩⟩
  have hblocked : ∀ t ∈ (left xs).head?, t = [] := by
    intro t ht
    rw [hhead] at ht
    exact (Option.some_inj.mp ht).symm
  have hbehind : Behind (pushCut (keptBySed xs) dots) (resolveComponent (resolved xs) dots) := by
    rw [hkept, pushCut_blocked hblocked]
    apply behind_of_stopped (.inr ⟨_, rfl, hblocked⟩)
    rw [resolveComponent_up, List.length_tail, List.countP_cons_of_neg (by decide)]
    omega
  refine not_right_of_behind ?_ hright
  rw [keptBySed, resolved, hcs, List.foldl_append, List.foldl_append]
  exact @behind_foldl _ _ ys hbehind

theorem paired_of_right (hcs : cs = xs ++ ys) (h : InStepAfter xs) (hright : Right cs)
    (hys : ys = [] ∨ ys.head? = some []) : Even (rootUps xs) := by
  by_contra hodd
  obtain ⟨as, es, hkept, -⟩ := h.odd hodd
  have hup : dots ∈ keptBySed xs := hkept ▸ List.mem_append_right _ (List.mem_cons_self ..)
  have hlast : dots ∈ keptBySed cs := by
    rw [keptBySed, hcs, List.foldl_append]
    rcases hys with rfl | hhead
    · exact hup
    · obtain ⟨zs, rfl⟩ := List.head?_eq_some_iff.mp hhead
      obtain ⟨as', has'⟩ := foldl_pushCut_above zs [] (keptBySed xs)
      have hpush : pushCut (keptBySed xs) [] = [] ++ [] :: keptBySed xs := pushCut_name (Ne.symm dots_ne_nil) _
      rw [List.foldl_cons]
      change dots ∈ zs.foldl pushCut (pushCut (keptBySed xs) [])
      rw [hpush, has']
      exact List.mem_append_right _ (List.mem_cons_of_mem _ hup)
  exact hright.noDots _ hlast List.infix_rfl

theorem InStep.even_of_blocked (h : InStep kept st ns n) (hblocked : ∀ t ∈ kept.head?, t = []) : Even n := by
  by_contra hodd
  obtain ⟨as, es, rfl, -, has, -⟩ := h.odd hodd
  cases as with
  | nil => exact dots_ne_nil (hblocked dots rfl)
  | cons a as => exact has a (List.mem_cons_self ..) (hblocked a rfl)

theorem settled_of_right (hglue : NoGlue [] cs) (hright : Right cs) : Settled cs := by
  have hstep : ∀ xs ys, cs = xs ++ ys → InStepAfter xs :=
    inStepAfter_prefix (fun _ _ hcs hxs => taken_of_right hcs hxs hright)
      (fun _ _ hcs hxs => paired_of_right hcs hxs hright (.inr rfl))
  have hpaired : ∀ xs ys, cs = xs ++ ys → (ys = [] ∨ ys.head? = some []) → Even (rootUps xs) :=
    fun xs ys hcs => paired_of_right hcs (hstep xs ys hcs) hright
  refine ⟨fun xs ys hcs => taken_of_right hcs (hstep xs _ hcs) hright, hpaired, ?_, ?_⟩
  · intro xs c ys hcs hdotted
    have hblocked := hglue xs c ys hcs hdotted
    have heven := (hstep xs _ hcs).even_of_blocked hblocked
    have hsame : xs.foldl pushCut [] = left xs := (hstep xs _ hcs).even heven
    rw [hsame] at hblocked
    refine ⟨?_, heven⟩
    cases hleft : left xs with
    | nil => exact .inl rfl
    | cons t st =>
      rw [hleft] at hblocked
      exact .inr (congrArg some (hblocked t rfl))
  · have hend := (List.append_nil cs).symm
    have hsame : keptBySed cs = left cs := (hstep cs [] hend).even (hpaired cs [] hend (.inl rfl))
    rw [← hsame]
    exact ⟨hright.nonempty, hright.noDots⟩

theorem removeDotDot_noDots {v w : Text} (h : removeDotDot v = some w) : ¬ dots <:+: w := by
  induction hn : v.length using Nat.strong_induction_on generalizing v with
  | _ n ih =>
    rw [removeDotDot] at h
    split_ifs at h with hdots hshort
    · exact ih _ (hn ▸ hshort) h rfl
    · cases h
      exact hdots

theorem noGlue_of_plain (h : ∀ c ∈ cs, ¬ Dotted c) : NoGlue st cs := by
  intro xs c ys hcs hdotted
  exact absurd hdotted (h c (hcs ▸ List.mem_append_right _ (List.mem_cons_self ..)))

theorem not_dotted_of_resolves {k : Link} (hres : Resolves k)
    (hleft : ∀ c ∈ k.cs, Dotted c → c ∈ resolved k.cs) : ∀ c ∈ k.cs, ¬ Dotted c := by
  intro c hc hdotted
  obtain ⟨w, hw, hstart, hnames⟩ := hres
  have hmem : c ∈ names w := by
    rw [hnames]
    exact List.mem_reverse.mpr (hleft c hc hdotted)
  have hprefix : dots <:+: c := (startsWith_iff.mp hdotted.1).isInfix
  apply removeDotDot_noDots hw
  rw [← render_components hstart, dots_infix_render_iff]
  exact ⟨c, (List.mem_filter.mp hmem).1, hprefix⟩

/-- The condition is exact unless sed takes a name for `..` that later ones take back. -/
theorem resolves_iff_settled (k : Link) : (Settled k.cs → Resolves k) ∧
    (NoGlue [] k.cs ∨ (∀ c ∈ k.cs, Dotted c → c ∈ resolved k.cs) → (Resolves k ↔ Settled k.cs)) := by
  have henough : Settled k.cs → Resolves k := by
    intro h
    obtain ⟨hglue, hright⟩ := right_of_settled h
    exact (resolves_iff_right k hglue).mpr hright
  refine ⟨henough, fun hnames => ⟨fun hres => ?_, henough⟩⟩
  have hglue : NoGlue [] k.cs := by
    rcases hnames with hglue | hleft
    · exact hglue
    · exact noGlue_of_plain (not_dotted_of_resolves hres hleft)
  exact settled_of_right hglue ((resolves_iff_right k hglue).mp hres)

def aboveRoot : Link where
  bin := "/lib/libz.so".toList
  target := "../../usr/lib/libz.so.1".toList
  absolute := by decide
  relative := by decide

theorem aboveRoot_not_resolved : ¬ Resolves aboveRoot := by
  intro h
  have hright := (resolves_iff_right aboveRoot (noGlue_of_plain (by decide))).mp h
  exact hright.noDots dots (by decide) List.infix_rfl

end CgxLayer.Ramdisk

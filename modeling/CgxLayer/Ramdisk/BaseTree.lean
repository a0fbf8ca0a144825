import CgxLayer.PathWalk
import CgxLayer.Ramdisk.BinaryClosure
import CgxLayer.Ramdisk.DotDotSettled
import CgxLayer.Ramdisk.Shell
import CgxLayer.Shell.Read

namespace CgxLayer.Ramdisk

open Text Shell PathWalk Relation

abbrev BaseTree (C : Type) := FileTree Text (Leaf Text C)

variable {C : Type}

def linkTo (l : Text) : Leaf Text C := .link (startsWith ['/'] l) (stepsOf l)

def binBusybox : Text := "/bin/busybox".toList

def leafOf (fs : FileSystem) (content : Text → C) (source : Text) : Leaf Text C :=
  if source = busybox then linkTo binBusybox
  else
    match fs.link source with
    | some l => linkTo l
    | none => .file (content source)

-- A file does not take the place of a link: `cp` writes to where it leads.
def putLeaf (t : BaseTree C) (q : List Text) (leaf : Leaf Text C) : Option (BaseTree C) :=
  match t q, leaf with
  | some .dir, _ => none
  | some (.file (.link _ _)), .file _ => none
  | _, _ => some (t.put q leaf)

/-- One line of PROCFILE; `none` where a command fails, and where it would write elsewhere than into
the build directory or copy a directory. -/
def copyLine (fs : FileSystem) (content : Text → C) (t : BaseTree C) (line : Quoted) : Option (BaseTree C) :=
  match readVars 2 line with
  | [source, target] =>
    let steps := stepsOf target
    if startsWith ['/'] target && within [] steps && (source == busybox || (fs.place source).isSome) then
      match mkdirs t [] steps.dropLast, steps.getLast? with
      | some t, some (.down _) =>
        let q := walk [] steps
        putLeaf t (if t.isDir q then q ++ [basename source] else q) (leafOf fs content source)
      | _, _ => none
    else none
  | _ => none

def emptyBuilddir : BaseTree C := fun q => if q = [] then some .dir else none

def copyBase (fs : FileSystem) (content : Text → C) (procfile : List Text) : Option (BaseTree C) :=
  (logicalLines procfile).foldlM (copyLine fs content) emptyBuilddir

def dirsOf (target : Text) : List (List Text) := trail [] (stepsOf target).dropLast

def EndsInName (s : Text) : Prop := ∃ name, (stepsOf s).getLast? = some (.down name)

/-- Pairs of files and names in the ramdisk that do not get in each other's way, and whose relative
links go straight to where they lead. -/
structure LaidOut (fs : FileSystem) (content : Text → C) (es : Set (Text × Text)) : Prop where
  target : ∀ e ∈ es, PathName e.2 ∧ EndsInName e.2 ∧ within [] (stepsOf e.2) = true
  source : ∀ e ∈ es, e.1 = busybox ∨ PathName e.1 ∧ (fs.place e.1).isSome
  same : ∀ e ∈ es, ∀ e' ∈ es, placeOf e.2 = placeOf e'.2 → leafOf fs content e.1 = leafOf fs content e'.1
  clear : ∀ e ∈ es, ∀ e' ∈ es, placeOf e.2 ∉ dirsOf e'.2
  relative : ∀ p l, (p, p) ∈ es → fs.link p = some l → startsWith ['/'] l = false →
    Straight (stepsOf l) ∧ EndsInName l ∧ ['.'] ∉ components (dirname p ++ '/' :: l)

structure Laid (fs : FileSystem) (content : Text → C) (t : BaseTree C) (es : List (Text × Text)) : Prop where
  root : t [] = some .dir
  leaf : ∀ e ∈ es, t (placeOf e.2) = some (.file (leafOf fs content e.1))
  dir : ∀ e ∈ es, ∀ q ∈ dirsOf e.2, t q = some .dir
  leaves : ∀ q leaf, t q = some (.file leaf) → ∃ e ∈ es, q = placeOf e.2
  dirs : ∀ q, t q = some .dir → q = [] ∨ ∃ e ∈ es, q ∈ dirsOf e.2

variable {fs : FileSystem} {content : Text → C} {es : List (Text × Text)} {all : Set (Text × Text)}

theorem stepOf_nil : stepOf [] = .stay := rfl

theorem stepOf_dots : stepOf dots = .up := rfl

theorem stepOf_name {c : Text} (hnil : c ≠ []) (hdot : c ≠ ['.']) (hdots : c ≠ dots) : stepOf c = .down c := by
  rw [stepOf, if_neg (not_or.mpr ⟨hnil, hdot⟩), if_neg hdots]

theorem stepsOf_render {cs : List Text} (h : ∀ c ∈ cs, '/' ∉ c) : stepsOf (render cs) = .stay :: cs.map stepOf := by
  have hsplit : (render cs).splitOn '/' = [] :: cs := splitOnP_render [] cs List.not_mem_nil h
  rw [stepsOf, hsplit, List.map_cons, stepOf_nil]

theorem stepsOf_append (a b : Text) : stepsOf (a ++ '/' :: b) = stepsOf a ++ stepsOf b := by
  rw [stepsOf, List.splitOn_append_cons_self, List.map_append]
  rfl

theorem EndsInName.eq {s : Text} (h : EndsInName s) : ∃ name, stepsOf s = (stepsOf s).dropLast ++ [.down name] := by
  obtain ⟨name, hname⟩ := h
  exact ⟨name, (List.dropLast_append_getLast? _ hname).symm⟩

theorem walk_names {cs : List Text} (hdots : dots ∉ cs) (hdot : ['.'] ∉ cs) (dir : List Text) :
    walk dir (cs.map stepOf) = dir ++ cs.filter (fun c => !c.isEmpty) := by
  induction cs generalizing dir with
  | nil => exact (List.append_nil dir).symm
  | cons c cs ih =>
    rw [List.mem_cons, not_or] at hdots hdot
    rw [List.map_cons, walk_cons, ih hdots.2 hdot.2]
    by_cases hnil : c = []
    · rw [hnil]
      rfl
    · rw [stepOf_name hnil (Ne.symm hdot.1) (Ne.symm hdots.1), List.filter_cons_of_pos (by simpa using hnil)]
      exact List.append_assoc dir [c] _

theorem Tame.init {cs : List Text} {c : Text} (h : Tame (cs ++ [c])) : Tame cs where
  plain d hd := h.plain d (List.mem_append_left _ hd)
  dotted d hd := h.dotted d (List.mem_append_left _ hd)
  nonempty d hd := by
    apply h.nonempty d
    cases cs with
    | nil => cases hd
    | cons e cs => exact List.mem_append_left _ hd

theorem left_walk {cs : List Text} (h : Tame cs) (hdot : ['.'] ∉ cs) : dots ∉ left cs ∧
    (∀ c ∈ (left cs).dropLast, c ≠ []) ∧
    walk [] (cs.map stepOf) = ((left cs).filter (fun c => !c.isEmpty)).reverse := by
  induction cs using List.reverseRecOn with
  | nil => exact ⟨List.not_mem_nil, fun _ hc => absurd hc List.not_mem_nil, rfl⟩
  | append_singleton cs c ih =>
    rw [List.mem_append, List.mem_singleton, not_or] at hdot
    obtain ⟨hnot, hbottom, hwalk⟩ := ih h.init hdot.1
    rw [left_concat, List.map_append, List.map_singleton, walk_concat, hwalk]
    by_cases hdots : c = dots
    · subst hdots
      rw [stepOf_dots]
      cases hleft : left cs with
      | nil => exact ⟨List.not_mem_nil, fun _ hc => absurd hc List.not_mem_nil, rfl⟩
      | cons d ds =>
        rw [hleft] at hnot hbottom
        by_cases hd : d = []
        · subst hd
          have hds : ds = [] := by
            by_contra hne
            rw [List.dropLast_cons_of_ne_nil hne] at hbottom
            exact hbottom [] (List.mem_cons_self ..) rfl
          subst hds
          exact ⟨hnot, hbottom, rfl⟩
        · rw [pushComponent_up hd, List.filter_cons_of_pos (by simpa using hd), List.reverse_cons]
          refine ⟨fun hmem => hnot (List.mem_cons_of_mem _ hmem), fun c hc => hbottom c ?_, ?_⟩
          · rw [List.dropLast_cons_of_ne_nil (List.ne_nil_of_mem (List.mem_of_mem_dropLast hc))]
            exact List.mem_cons_of_mem _ hc
          · exact List.dropLast_concat
    · rw [pushComponent_name hdots, List.mem_cons, not_or]
      refine ⟨⟨Ne.symm hdots, hnot⟩, ?_⟩
      by_cases hnil : c = []
      · have hcs : cs = [] := by
          by_contra hne
          obtain ⟨d, ds, rfl⟩ := List.exists_cons_of_ne_nil hne
          exact h.nonempty c (List.mem_append_right ds (List.mem_singleton_self c)) hnil
        subst hcs hnil
        exact ⟨fun _ hc => absurd hc List.not_mem_nil, rfl⟩
      · rw [stepOf_name hnil (Ne.symm hdot.2) hdots, List.filter_cons_of_pos (by simpa using hnil), List.reverse_cons]
        refine ⟨fun d hd => ?_, rfl⟩
        by_cases hne : left cs = []
        · rw [hne] at hd
          cases hd
        · rw [List.dropLast_cons_of_ne_nil hne] at hd
          obtain rfl | hd := List.mem_cons.mp hd
          · exact hnil
          · exact hbottom d hd

theorem placeOf_lexical {cs : List Text} (h : Tame cs) (hdot : ['.'] ∉ cs) :
    placeOf (lexical (render cs)) = placeOf (render cs) := by
  obtain ⟨hdots, -, hwalk⟩ := left_walk h hdot
  have hmem : ∀ c ∈ (left cs).reverse, c ∈ cs :=
    fun c hc => (mem_foldl_pushComponent (List.mem_reverse.mp hc)).resolve_right List.not_mem_nil
  have hlexical : lexical (render cs) = render (left cs).reverse := lexical_render cs h
  have hnames : walk [] ((left cs).reverse.map stepOf) = (left cs).reverse.filter (fun c => !c.isEmpty) :=
    walk_names (fun hup => hdots (List.mem_reverse.mp hup)) (fun hd => hdot (hmem _ hd)) []
  rw [placeOf, placeOf, hlexical, stepsOf_render (fun c hc => h.plain c (hmem c hc)), stepsOf_render h.plain,
    walk_cons, walk_cons]
  refine hnames.trans ?_
  rw [List.filter_reverse, ← hwalk]
  rfl

theorem walk_dirname {p : Text} (hp : PathName p) (hname : EndsInName p) :
    walk [] (stepsOf (dirname p)) = walk [] (stepsOf p).dropLast := by
  obtain ⟨cs, c, rfl, hcs⟩ := hp
  have hplain := hcs.tame.plain
  have hinit : ∀ d ∈ cs, '/' ∉ d := fun d hd => hplain d (List.mem_append_left _ hd)
  have hc : '/' ∉ c := hplain c (List.mem_append_right _ (List.mem_singleton_self c))
  have hdrop : (stepsOf (render (cs ++ [c]))).dropLast = .stay :: cs.map stepOf := by
    rw [stepsOf_render hplain, List.map_append, List.map_singleton, ← List.cons_append, List.dropLast_concat]
  rw [hdrop]
  by_cases hroot : cs = [] ∨ cs = [[]]
  · rw [dirname_root c cs hc hroot]
    obtain rfl | rfl := hroot <;> rfl
  · rw [not_or] at hroot
    obtain rfl | ⟨pre, x, rfl⟩ := List.eq_nil_or_concat cs
    · exact absurd rfl hroot.1
    · rw [List.concat_eq_append] at *
      have hx : x ≠ [] := by
        rintro rfl
        cases pre with
        | nil => exact hroot.2 rfl
        | cons y ys => exact hcs.tame.init.nonempty [] (List.mem_append_right ys (List.mem_singleton_self _)) rfl
      rw [dirname_deep c x pre hc (hinit x (List.mem_append_right _ (List.mem_singleton_self x))) hx,
        stepsOf_render hinit]

theorem walk_link {p l : Text} (hlink : fs.link p = some l) (hname : EndsInName p)
    (hrel : startsWith ['/'] l = false) (hdot : ['.'] ∉ components (dirname p ++ '/' :: l)) :
    walk (walk [] (stepsOf p).dropLast) (stepsOf l) = placeOf (linkTarget p l) := by
  obtain ⟨hp, hl⟩ := link_name hlink
  have hl' : RelativeName l := by
    refine hl.resolve_left (fun habs => ?_)
    rw [habs.startsWith] at hrel
    cases hrel
  obtain ⟨cs, hcs, htame⟩ := joined_components hp hl'
  have hsteps : stepsOf (render cs) = stepsOf (dirname p) ++ stepsOf l := by rw [← hcs, stepsOf_append]
  rw [hcs, components_render cs htame.tame.plain] at hdot
  rw [linkTarget, if_neg (by rw [hrel]; exact Bool.false_ne_true), hcs, placeOf_lexical htame.tame hdot, placeOf,
    hsteps, walk_append, walk_dirname hp hname]

theorem putLeaf_eq {t : BaseTree C} {q : List Text} {leaf : Leaf Text C}
    (h : t q = none ∨ t q = some (.file leaf)) : putLeaf t q leaf = some (t.put q leaf) := by
  obtain h | h := h
  · simp only [putLeaf, h]
  · cases leaf <;> simp only [putLeaf, h]

theorem put_self {t : BaseTree C} {q : List Text} {leaf : Leaf Text C} : t.put q leaf q = some (.file leaf) :=
  if_pos rfl

theorem put_ne {t : BaseTree C} {q q' : List Text} {leaf : Leaf Text C} (h : q' ≠ q) : t.put q leaf q' = t q' :=
  if_neg h

theorem laid_empty : Laid fs content emptyBuilddir [] where
  root := rfl
  leaf _ he := absurd he List.not_mem_nil
  dir _ he := absurd he List.not_mem_nil
  leaves q leaf h := by
    rw [emptyBuilddir] at h
    split_ifs at h
    cases h
  dirs q h := by
    rw [emptyBuilddir] at h
    split_ifs at h with hq
    exact .inl hq

namespace LaidOut

variable (hall : LaidOut fs content all)

include hall

theorem placeOf_eq {e : Text × Text} (he : e ∈ all) :
    ∃ name, stepsOf e.2 = (stepsOf e.2).dropLast ++ [.down name] ∧
      placeOf e.2 = walk [] (stepsOf e.2).dropLast ++ [name] := by
  obtain ⟨name, hsteps⟩ := (hall.target e he).2.1.eq
  refine ⟨name, hsteps, ?_⟩
  rw [placeOf, hsteps, walk_concat, List.dropLast_concat]
  rfl

theorem place_ne_nil {e : Text × Text} (he : e ∈ all) : placeOf e.2 ≠ [] := by
  obtain ⟨name, -, hplace⟩ := hall.placeOf_eq he
  rw [hplace]
  exact List.append_ne_nil_of_right_ne_nil _ (List.cons_ne_nil _ _)

end LaidOut

namespace Laid

variable {t made : BaseTree C} {e : Text × Text} (hall : LaidOut fs content all) (hes : ∀ e' ∈ es, e' ∈ all)
  (he : e ∈ all) (h : Laid fs content t es)

include hall hes he h

theorem dirs_free : ∀ q ∈ dirsOf e.2, ∀ leaf, t q ≠ some (.file leaf) := by
  intro q hq leaf hleaf
  obtain ⟨e', he', rfl⟩ := h.leaves q leaf hleaf
  exact hall.clear e' (hes e' he') e he hq

theorem place_free : t (placeOf e.2) = none ∨ t (placeOf e.2) = some (.file (leafOf fs content e.1)) := by
  cases hq : t (placeOf e.2) with
  | none => exact .inl rfl
  | some n =>
    cases n with
    | dir =>
      obtain hnil | ⟨e', he', hdir⟩ := h.dirs _ hq
      · exact absurd hnil (hall.place_ne_nil he)
      · exact absurd hdir (hall.clear e he e' (hes e' he'))
    | file leaf =>
      obtain ⟨e', he', hsame⟩ := h.leaves _ leaf hq
      rw [hsame, h.leaf e' he'] at hq
      rw [← hq, hall.same e he e' (hes e' he') hsame]
      exact .inr rfl

theorem put (hnew : ∀ q ∈ dirsOf e.2, t q = none → made q = some .dir)
    (hkept : ∀ q, t q ≠ none ∨ q ∉ dirsOf e.2 → made q = t q) :
    Laid fs content (made.put (placeOf e.2) (leafOf fs content e.1)) (es ++ [e]) := by
  have hold : ∀ {q n}, q ≠ placeOf e.2 → t q = some n →
      made.put (placeOf e.2) (leafOf fs content e.1) q = some n := by
    intro q n hne hq
    rw [put_ne hne, hkept q (.inl (by rw [hq]; exact Option.some_ne_none n)), hq]
  have hmem : ∀ e' ∈ es ++ [e], e' ∈ es ∨ e' = e :=
    fun e' he' => (List.mem_append.mp he').imp_right List.mem_singleton.mp
  constructor
  · exact hold (hall.place_ne_nil he).symm h.root
  · intro e' he'
    by_cases hsame : placeOf e'.2 = placeOf e.2
    · have hin : e' ∈ all := (hmem e' he').elim (hes e') (fun heq => heq ▸ he)
      rw [hsame, put_self, hall.same e' hin e he hsame]
    · obtain he' | rfl := hmem e' he'
      · exact hold hsame (h.leaf e' he')
      · exact absurd rfl hsame
  · intro e' he' q hq
    obtain he' | rfl := hmem e' he'
    · exact hold (fun hsame => hall.clear e he e' (hes e' he') (hsame ▸ hq)) (h.dir e' he' q hq)
    · rw [put_ne (fun hsame => hall.clear e' he e' he (by rwa [← hsame]))]
      cases ht : t q with
      | none => exact hnew q hq ht
      | some n =>
        cases n with
        | dir => rw [hkept q (.inl (by rw [ht]; exact Option.some_ne_none _)), ht]
        | file leaf => exact absurd ht (h.dirs_free hall hes he q hq leaf)
  · intro q leaf hleaf
    by_cases hq : q = placeOf e.2
    · exact ⟨e, List.mem_append_right _ (List.mem_singleton_self e), hq⟩
    · rw [put_ne hq] at hleaf
      have hold' : t q = some (.file leaf) := by
        rw [← hkept q, hleaf]
        by_contra hno
        rw [not_or, not_not, not_not] at hno
        rw [hnew q hno.2 hno.1] at hleaf
        cases hleaf
      obtain ⟨e', he', hq'⟩ := h.leaves q leaf hold'
      exact ⟨e', List.mem_append_left _ he', hq'⟩
  · intro q hdir
    have hq : q ≠ placeOf e.2 := by
      rintro rfl
      rw [put_self] at hdir
      cases hdir
    rw [put_ne hq] at hdir
    by_cases hmem' : q ∈ dirsOf e.2
    · exact .inr ⟨e, List.mem_append_right _ (List.mem_singleton_self e), hmem'⟩
    · rw [hkept q (.inr hmem')] at hdir
      refine (h.dirs q hdir).imp_right (fun hbefore => ?_)
      obtain ⟨e', he', hq'⟩ := hbefore
      exact ⟨e', List.mem_append_left _ he', hq'⟩

theorem copyLine {line : Quoted} (hline : readVars 2 line = [e.1, e.2]) :
    ∃ t', copyLine fs content t line = some t' ∧ Laid fs content t' (es ++ [e]) := by
  obtain ⟨made, hmk, hnew, hkept⟩ := exists_mkdirs (h.dirs_free hall hes he)
  have hplace : made (placeOf e.2) = none ∨ made (placeOf e.2) = some (.file (leafOf fs content e.1)) := by
    rw [hkept _ (.inr (hall.clear e he e he))]
    exact h.place_free hall hes he
  have hnotDir : made.isDir (placeOf e.2) = false := by
    rw [← Bool.not_eq_true, FileTree.isDir_iff]
    intro hdir
    obtain hp | hp := hplace <;> rw [hdir] at hp <;> cases hp
  obtain ⟨hpath, ⟨name, hlast⟩, hwithin⟩ := hall.target e he
  have hsource : (e.1 == busybox || (fs.place e.1).isSome) = true := by
    obtain hb | ⟨-, hfile⟩ := hall.source e he
    · simp [hb]
    · simp [hfile]
  refine ⟨made.put (placeOf e.2) (leafOf fs content e.1), ?_, h.put hall hes he hnew hkept⟩
  rw [Ramdisk.copyLine, hline]
  dsimp only
  rw [hpath.startsWith, hwithin, hsource, hmk, hlast]
  simp only [Bool.and_self, if_true]
  rw [← placeOf, hnotDir, if_neg Bool.false_ne_true]
  exact putLeaf_eq hplace

end Laid

theorem laid_copyLines {ls : List Quoted} {t : BaseTree C} {more : List (Text × Text)} (hall : LaidOut fs content all)
    (hes : ∀ e ∈ es, e ∈ all) (hmore : ∀ e ∈ more, e ∈ all)
    (hread : ls.map (readVars 2) = more.map (fun e => [e.1, e.2])) (h : Laid fs content t es) :
    ∃ t', ls.foldlM (copyLine fs content) t = some t' ∧ Laid fs content t' (es ++ more) := by
  induction more generalizing ls t es with
  | nil =>
    obtain rfl := List.map_eq_nil_iff.mp hread
    rw [List.append_nil]
    exact ⟨t, rfl, h⟩
  | cons e more ih =>
    obtain ⟨line, rest, rfl, hline, hrest⟩ := List.map_eq_cons_iff.mp hread
    obtain ⟨he, hmore⟩ := List.forall_mem_cons.mp hmore
    obtain ⟨t₁, hcopy, h₁⟩ := h.copyLine hall hes he hline
    have hes₁ : ∀ e' ∈ es ++ [e], e' ∈ all := by
      intro e' he'
      obtain he' | he' := List.mem_append.mp he'
      · exact hes e' he'
      · rwa [List.mem_singleton.mp he']
    obtain ⟨t', hrun, h'⟩ := ih hes₁ hmore hrest h₁
    rw [List.append_assoc, List.singleton_append] at h'
    refine ⟨t', ?_, h'⟩
    rw [List.foldlM_cons, hcopy]
    exact hrun

theorem pathName_word {p : Text} (h : PathName p) : IsWord shBlank p ∧ '\\' ∉ p := by
  obtain ⟨cs, c, rfl, hcs⟩ := h
  refine ⟨⟨?_, noBlank_render hcs.words⟩, fun hmem => ?_⟩
  · rw [render_append, render_cons]
    exact List.append_ne_nil_of_right_ne_nil _ (List.cons_ne_nil _ _)
  · obtain ⟨d, hd, hmem⟩ := List.mem_flatMap.mp hmem
    obtain hslash | hmem := List.mem_cons.mp hmem
    · cases hslash
    · have hname := hcs.words d hd _ hmem
      revert hname
      decide

theorem logicalLines_plain {ls : List Text} (h : ∀ l ∈ ls, '\\' ∉ l) : logicalLines ls = ls.map plain := by
  induction ls with
  | nil => rfl
  | cons l ls ih =>
    obtain ⟨hl, hls⟩ := List.forall_mem_cons.mp h
    rw [logicalLines, continued_plain hl, if_neg Bool.false_ne_true, unescape_plain hl, ih hls, List.map_cons]

theorem busybox_word : IsWord shBlank busybox ∧ '\\' ∉ busybox := by
  unfold IsWord
  decide

namespace LaidOut

variable (hall : LaidOut fs content all) {e : Text × Text}

include hall

theorem source_word (he : e ∈ all) : IsWord shBlank e.1 ∧ '\\' ∉ e.1 := by
  obtain hb | ⟨hpath, -⟩ := hall.source e he
  · rw [hb]
    exact busybox_word
  · exact pathName_word hpath

theorem readVars_procLine (he : e ∈ all) : readVars 2 (plain (procLine e)) = [e.1, e.2] := by
  have hjoin : joinWith ' ' ([e.1] ++ [e.2]) = procLine e := by
    rw [List.singleton_append, joinWith_cons_cons, joinWith_singleton]
    rfl
  have hsource : ∀ v ∈ [e.1], IsWord shBlank v := by
    intro v hv
    rw [List.mem_singleton.mp hv]
    exact (hall.source_word he).1
  rw [← hjoin]
  exact readVars_join [e.1] e.2 hsource (pathName_word (hall.target e he).1).1

theorem procLine_unquoted (he : e ∈ all) : '\\' ∉ procLine e := by
  rw [procLine, List.mem_append, List.mem_cons, not_or, not_or]
  exact ⟨(hall.source_word he).2, by decide, (pathName_word (hall.target e he).1).2⟩

theorem copyBase {more : List (Text × Text)} (hmore : ∀ e ∈ more, e ∈ all) :
    ∃ t, copyBase fs content (more.map procLine) = some t ∧ Laid fs content t more := by
  have hplain : logicalLines (more.map procLine) = (more.map procLine).map plain := by
    apply logicalLines_plain
    intro l hl
    obtain ⟨e, he, rfl⟩ := List.mem_map.mp hl
    exact hall.procLine_unquoted (hmore e he)
  rw [Ramdisk.copyBase, hplain]
  apply laid_copyLines hall (fun _ he => absurd he List.not_mem_nil) hmore _ laid_empty
  rw [List.map_map, List.map_map]
  exact List.map_congr_left (fun e he => hall.readVars_procLine (hmore e he))

end LaidOut

section Leads

variable {t : BaseTree C} {n : ℕ} {f : C} (hall : LaidOut fs content all) (hes : ∀ e ∈ es, e ∈ all)
  (h : Laid fs content t es)

theorem Laid.above (h : Laid fs content t es) {e : Text × Text} {r : List Text} (he : e ∈ es)
    (hr : r <+: walk [] (stepsOf e.2).dropLast) : r = [] ∨ t r = some .dir := by
  obtain hnil | hmem := prefix_walk hr
  · exact .inl (List.prefix_nil.mp hnil)
  · exact .inr (h.dir e he r hmem)

include hall hes h

theorem leads_last {p target : Text} (hp : (p, target) ∈ es) :
    ∃ name, placeOf target = walk [] (stepsOf target).dropLast ++ [name] ∧
      t (walk [] (stepsOf target).dropLast ++ [name]) = some (.file (leafOf fs content p)) ∧
      ∀ n f, Leads t [] (stepsOf target) n f ↔ Leads t (walk [] (stepsOf target).dropLast) [.down name] n f := by
  obtain ⟨name, hsteps, hplace⟩ := hall.placeOf_eq (hes _ hp)
  dsimp only at hsteps hplace
  have hmade : ∀ r ∈ trail [] (stepsOf target).dropLast, r = [] ∨ t r = some .dir :=
    fun r hr => .inr (h.dir _ hp r hr)
  refine ⟨name, hplace, ?_, fun n f => ?_⟩
  · rw [← hplace]
    exact h.leaf _ hp
  · rw [← leads_append hmade, ← hsteps]

theorem leads_relative {p l q : Text} (hp : (p, p) ∈ es) (hlink : fs.link p = some l)
    (hrel : startsWith ['/'] l = false) (hq : (q, q) ∈ es) (hnext : q = linkTarget p l)
    (hleads : Leads t [] (stepsOf q) n f) :
    Leads t (walk [] (stepsOf p).dropLast) (stepsOf l) n f := by
  obtain ⟨hstraight, hname, hdot⟩ := hall.relative p l (hes _ hp) hlink hrel
  obtain ⟨lname, hlsteps⟩ := hname.eq
  obtain ⟨qname, hqplace, -, hqleads⟩ := leads_last hall hes h hq
  have hwalk : walk (walk [] (stepsOf p).dropLast) (stepsOf l) = placeOf q := by
    rw [hnext]
    exact walk_link hlink (hall.target _ (hes _ hp)).2.1 hrel hdot
  rw [hlsteps, walk_concat, hqplace] at hwalk
  obtain ⟨hdir, hlast⟩ := List.append_inj' hwalk rfl
  obtain ⟨hlname, -⟩ := List.cons.inj hlast
  have hthrough : ∀ r ∈ trail (walk [] (stepsOf p).dropLast) (stepsOf l).dropLast, r = [] ∨ t r = some .dir := by
    intro r hr
    rw [hlsteps] at hstraight
    obtain hr | hr := hstraight.init.trail hr
    · exact h.above hp hr
    · rw [hdir] at hr
      exact h.above hq hr
  rw [hlsteps, leads_append hthrough, hdir, hlname]
  exact (hqleads n f).mp hleads

theorem leads_chase {limit : ℕ} {p target : Text} {names : List Text} (hp : (p, target) ∈ es) (hfile : p ≠ busybox)
    (hnext : ∀ q, TransGen (Goes fs) p q → (q, q) ∈ es)
    (hsame : target = p ∨ ∀ l, fs.link p = some l → startsWith ['/'] l = true)
    (hchase : chase fs limit p = some names) :
    Leads t [] (stepsOf target) names.length (content (names.getLastD p)) := by
  induction limit generalizing p target names with
  | zero => cases hchase
  | succ limit ih =>
    obtain ⟨name, -, hleaf, hlast⟩ := leads_last hall hes h hp
    rw [leafOf, if_neg hfile] at hleaf
    rw [hlast]
    cases hlink : fs.link p with
    | none =>
      rw [chase_end limit hlink] at hchase
      obtain rfl := Option.some.inj hchase
      rw [hlink] at hleaf
      exact .file hleaf
    | some l =>
      rw [hlink] at hleaf
      cases hfollow : followLink p l with
      | none =>
        rw [chase_stuck limit hlink hfollow] at hchase
        cases hchase
      | some q =>
        rw [chase_step limit hlink hfollow] at hchase
        obtain ⟨rest, hrest, rfl⟩ := Option.map_eq_some_iff.mp hchase
        have hq : q = linkTarget p l := followLink_eq hlink hfollow
        have hstep : Goes fs p q := ⟨l, hlink, hfollow⟩
        have hmem : (q, q) ∈ es := hnext q (.single hstep)
        have hqfile : q ≠ busybox := by
          rintro rfl
          have habs := (hall.target _ (hes _ hmem)).1.startsWith
          revert habs
          decide
        have hleads := ih hmem hqfile (fun r hr => hnext r (.head hstep hr)) (.inl rfl) hrest
        rw [getLastD_cons]
        apply Leads.link hleaf
        rw [List.append_nil]
        cases habs : startsWith ['/'] l with
        | true =>
          rw [linkTarget, habs, if_pos rfl] at hq
          rw [← hq]
          exact hleads
        | false =>
          have htarget : target = p := by
            apply hsame.resolve_right
            intro hno
            rw [hno l hlink] at habs
            cases habs
          rw [htarget] at hp ⊢
          exact leads_relative hall hes h hp hlink habs hmem hq hleads

theorem leads_busybox {target : Text} (hlink : (busybox, target) ∈ es)
    (hleads : Leads t [] (stepsOf binBusybox) n f) : Leads t [] (stepsOf target) (n + 1) f := by
  obtain ⟨name, -, hleaf, hlast⟩ := leads_last hall hes h hlink
  rw [leafOf, if_pos rfl] at hleaf
  rw [hlast]
  apply Leads.link hleaf
  rw [List.append_nil]
  exact hleads

end Leads

theorem exists_pairs {xs : List Text} (h : ∀ x ∈ xs, ∃ e ∈ all, procLine e = x) :
    ∃ es : List (Text × Text), es.map procLine = xs ∧ ∀ e ∈ es, e ∈ all := by
  induction xs with
  | nil => exact ⟨[], rfl, fun _ he => absurd he List.not_mem_nil⟩
  | cons x xs ih =>
    obtain ⟨⟨e, he, rfl⟩, hxs⟩ := List.forall_mem_cons.mp h
    obtain ⟨es, rfl, hes⟩ := ih hxs
    exact ⟨e :: es, rfl, List.forall_mem_cons.mpr ⟨he, hes⟩⟩

section

variable {next : Text → Text → Prop} {lines : List (List Text)}

theorem InClosure.reached {e : Text × Text} (h : InClosure fs next lines e) (hfile : e.1 ≠ Ramdisk.busybox) :
    ∃ r, Processed fs next lines r ∧ ReflTransGen next r e.1 := by
  cases h with
  | busybox => exact absurd rfl hfile
  | listed hws hitem => exact ⟨_, .listed hws hitem, .refl⟩
  | link hp hlink => exact ⟨_, hp, hlink.to_reflTransGen⟩
  | library hp hneeds => exact ⟨_, .library hp hneeds, .refl⟩

end

theorem followable_along {p q : Text} (h : Followable fs p) (hq : ReflTransGen (Next fs) p q) : Followable fs q :=
  fun r l hr => h r l (hq.trans hr)

theorem Followable.chase_final {p : Text} (h : Followable fs p) {limit : ℕ} {names : List Text}
    (hchase : chase fs limit p = some names) : Final fs (Next fs) p (names.getLastD p) := by
  obtain ⟨-, ⟨hreach, hend⟩, -⟩ := chase_some hchase
  exact ⟨h.reflTransGen_iff.mp hreach, hend⟩

theorem base_leads (fs : FileSystem) (content : Text → C) (required : RequiredBinaries fs) (h : Unwinds fs required)
    (hall : LaidOut fs content {e | InClosure fs (Next fs) required.lines e}) :
    ∃ limit fuel procfile t, makeBase fs limit fuel required.lines = some (some procfile) ∧
      copyBase fs content procfile = some t ∧
      (∀ p target, InClosure fs (Next fs) required.lines (p, target) → p ≠ busybox →
        (target = p ∨ ∀ l, fs.link p = some l → startsWith ['/'] l = true) →
        ∃ n f, Final fs (Next fs) p f ∧ Leads t [] (stepsOf target) n (content f)) ∧
      ∀ target, InClosure fs (Next fs) required.lines (busybox, target) →
        InClosure fs (Next fs) required.lines (binBusybox, binBusybox) →
        ∃ n f, Final fs (Next fs) binBusybox f ∧ Leads t [] (stepsOf target) (n + 1) (content f) := by
  obtain ⟨limit, fuel, procfile, hmake, -, hmaps, hinj, hsurj⟩ := listsClosure_of_unwinds h
  obtain ⟨es, rfl, hes⟩ := exists_pairs hsurj
  have hmem : ∀ e, InClosure fs (Next fs) required.lines e → e ∈ es := by
    intro e he
    obtain ⟨e', he', heq⟩ := List.mem_map.mp (hmaps he)
    rwa [← hinj (hes e' he') he heq]
  obtain ⟨t, hcopy, hlaid⟩ := hall.copyBase hes
  have hfiles : ∀ p target, InClosure fs (Next fs) required.lines (p, target) → p ≠ busybox →
      (target = p ∨ ∀ l, fs.link p = some l → startsWith ['/'] l = true) →
      ∃ n f, Final fs (Next fs) p f ∧ Leads t [] (stepsOf target) n (content f) := by
    intro p target hp hfile hsame
    obtain ⟨r, hr, hrp⟩ := hp.reached hfile
    have hfollow : Followable fs p := followable_along (h.links r hr) hrp
    obtain ⟨m, hm⟩ := exists_chase hfollow
    obtain ⟨names, hnames⟩ := Option.isSome_iff_exists.mp (hm m le_rfl)
    have hnext : ∀ q, TransGen (Goes fs) p q → (q, q) ∈ es := by
      intro q hq
      rw [hfollow.transGen_iff] at hq
      exact hmem _ (.link hr (.trans_right hrp hq))
    exact ⟨names.length, _, hfollow.chase_final hnames,
      leads_chase hall hes hlaid (hmem _ hp) hfile hnext hsame hnames⟩
  refine ⟨limit, fuel, _, t, hmake, hcopy, hfiles, ?_⟩
  intro target hlink hbusybox
  obtain ⟨n, f, hf, hleads⟩ := hfiles binBusybox binBusybox hbusybox (by decide) (.inl rfl)
  exact ⟨n, f, hf, leads_busybox hall hes hlaid (hmem _ hlink) hleads⟩

def mdadm : Text := "/sbin/mdadm".toList

def libM : Text := "/lib/libm.so.6".toList

def libMFile : Text := "/lib/libm-2.5.so".toList

def lineM : List Text := ["libm.so.6".toList, "=>".toList, libM, "(0xb7d00000)".toList]

theorem lddEntry_lineM : lddEntry lineM = some libM := by decide

theorem pathName_binBusybox : PathName binBusybox :=
  ⟨["bin".toList], "busybox".toList, by decide, ⟨by decide, by decide, by decide⟩, by decide⟩

theorem pathName_mdadm : PathName mdadm :=
  ⟨["sbin".toList], "mdadm".toList, by decide, ⟨by decide, by decide, by decide⟩, by decide⟩

theorem pathName_libM : PathName libM :=
  ⟨["lib".toList], "libm.so.6".toList, by decide, ⟨by decide, by decide, by decide⟩, by decide⟩

theorem pathName_libMFile : PathName libMFile :=
  ⟨["lib".toList], "libm-2.5.so".toList, by decide, ⟨by decide, by decide, by decide⟩, by decide⟩

def textM : Text := "libm-2.5.so".toList

def smallDirs : List (List Text) := [[], ["bin".toList], ["sbin".toList], ["lib".toList]]

def smallFiles : List (List Text) := [binBusybox, mdadm, libM, libMFile].map components

def smallLinkAt (q : List Text) : Option Text := if q = components libM then some textM else none

theorem smallLinkAt_some {q : List Text} {l : Text} (h : smallLinkAt q = some l) :
    q = components libM ∧ l = textM := by
  rw [smallLinkAt] at h
  split_ifs at h with hq
  exact ⟨hq, (Option.some.inj h).symm⟩

theorem smallLinkAt_libM : smallLinkAt (components libM) = some textM := if_pos rfl

theorem linkTarget_libM : linkTarget libM textM = libMFile := by decide +kernel

theorem targetText_libM : targetText (components libM) textM = libMFile := by decide +kernel

theorem placeIn_libMFile : placeIn smallDirs smallFiles libMFile = some (components libMFile) := by decide +kernel

theorem small_ldd {p ws q : _} (h : ws ∈ if p = mdadm then [lineM] else []) (hq : lddEntry ws = some q) :
    p = mdadm ∧ ws = lineM ∧ q = libM := by
  split_ifs at h with hp
  · obtain rfl := List.mem_singleton.mp h
    exact ⟨hp, rfl, Option.some.inj (hq.symm.trans lddEntry_lineM)⟩
  · cases h

def smallHost : FileSystem where
  lib64 := false
  place := placeIn smallDirs smallFiles
  linkAt := smallLinkAt
  links := [components libM]
  readable := fun p => p ∈ [binBusybox, mdadm, libM, libMFile]
  ldd := fun p => if p = mdadm then [lineM] else []
  libraries := [libM]
  place_name := placeIn_name (by decide +kernel)
  links_finite := by
    intro q h
    obtain ⟨l, hl⟩ := Option.ne_none_iff_exists'.mp h
    exact List.mem_singleton.mpr (smallLinkAt_some hl).1
  link_text := by
    intro q l h
    obtain ⟨rfl, rfl⟩ := smallLinkAt_some h
    refine .inr ⟨[textM], by decide, by decide, ⟨⟨by decide, by decide, by decide⟩, by decide⟩, by decide⟩
  links_acyclic := by
    intro q h
    obtain ⟨r, ⟨l, hl, -⟩, -⟩ := TransGen.head'_iff.mp h
    obtain ⟨r', -, l', hl', hr'⟩ := TransGen.tail'_iff.mp h
    obtain ⟨rfl, rfl⟩ := smallLinkAt_some hl
    obtain ⟨rfl, rfl⟩ := smallLinkAt_some hl'
    rw [targetText_libM, placeIn_libMFile] at hr'
    revert hr'
    decide
  ldd_words := by
    intro p ws hws
    split_ifs at hws
    · obtain rfl := List.mem_singleton.mp hws
      unfold IsWord
      decide
    · cases hws
  ldd_files := by
    intro p ws hws q hq _
    obtain ⟨-, -, rfl⟩ := small_ldd hws hq
    exact ⟨by decide, by decide, pathName_libM, by decide⟩

def smallList : RequiredBinaries smallHost where
  lines := [[binBusybox], [busybox, "/bin/sh".toList], [mdadm]]
  words := by
    unfold IsWord
    decide
  targets := by
    intro ws hws h
    simp only [List.mem_cons, List.not_mem_nil, or_false] at hws
    obtain rfl | rfl | rfl := hws <;> cases h
  exist := by
    intro ws hws bin target h
    simp only [List.mem_cons, List.not_mem_nil, or_false] at hws
    obtain rfl | rfl | rfl := hws <;> cases h
    all_goals decide

def smallPairs : List (Text × Text) :=
  [(binBusybox, binBusybox), (busybox, "/bin/sh".toList), (mdadm, mdadm), (libM, libM), (libMFile, libMFile)]

theorem small_link : smallHost.link libM = some textM := by decide +kernel

theorem small_no_link {p : Text} (h : p = binBusybox ∨ p = mdadm ∨ p = libMFile) : smallHost.link p = none := by
  obtain rfl | rfl | rfl := h <;> decide +kernel

theorem small_place : smallHost.place libM = some (components libM) := by decide +kernel

theorem small_step : Next smallHost libM libMFile := by
  refine ⟨components libM, textM, components libMFile, small_place, smallLinkAt_libM, ?_, ?_⟩
  · rw [targetText_libM]
    exact placeIn_libMFile
  · rw [nameOfTarget, linkTarget_libM]
    exact (if_pos placeIn_libMFile).symm

theorem small_next {p q : Text} (hp : p = binBusybox ∨ p = mdadm ∨ p = libM) (h : TransGen (Next smallHost) p q) :
    p = libM ∧ q = libMFile := by
  obtain ⟨r, hr, hrq⟩ := TransGen.head'_iff.mp h
  have hlib : p = libM := by
    by_contra hne
    exact hr.link (small_no_link (by tauto))
  subst hlib
  obtain rfl := hr.functional small_step
  obtain rfl | ⟨r', hr', -⟩ := hrq.cases_head
  · exact ⟨rfl, rfl⟩
  · exact absurd (small_no_link (.inr (.inr rfl))) hr'.link

theorem small_needs {p q : Text} (h : Needs smallHost (Next smallHost) p q) :
    Final smallHost (Next smallHost) p mdadm ∧ q = libM := by
  obtain ⟨f, hf, ⟨ws, hws, hq⟩, -⟩ := h
  obtain ⟨rfl, -, rfl⟩ := small_ldd hws hq
  exact ⟨hf, rfl⟩

theorem small_processed {p : Text} (h : Processed smallHost (Next smallHost) smallList.lines p) :
    p = binBusybox ∨ p = mdadm ∨ p = libM := by
  cases h with
  | listed hws hitem =>
    simp only [smallList, List.mem_cons, List.not_mem_nil, or_false] at hws
    obtain rfl | rfl | rfl := hws <;> cases hitem
    · exact .inl (by decide)
    · exact .inr (.inl (by decide))
  | library _ hneeds => exact .inr (.inr (small_needs hneeds).2)

theorem small_closure {e : Text × Text} (h : InClosure smallHost (Next smallHost) smallList.lines e) :
    e ∈ smallPairs := by
  cases h with
  | busybox hws hitem =>
    simp only [smallList, List.mem_cons, List.not_mem_nil, or_false] at hws
    obtain rfl | rfl | rfl := hws <;> cases hitem
    decide
  | listed hws hitem =>
    simp only [smallList, List.mem_cons, List.not_mem_nil, or_false] at hws
    obtain rfl | rfl | rfl := hws <;> cases hitem <;> decide
  | link hp hlink =>
    rw [(small_next (small_processed hp) hlink).2]
    decide
  | library _ hneeds =>
    rw [(small_needs hneeds).2]
    decide

theorem small_follow : followLink libM textM = some libMFile := by
  have hno : ¬ dots <:+: dirname libM ++ '/' :: textM := by decide +kernel
  have hjoin : dirname libM ++ '/' :: textM = libMFile := by decide +kernel
  rw [followLink, if_neg (by decide), removeDotDot, if_neg hno, hjoin]

theorem small_unwinds : Unwinds smallHost smallList where
  acyclic := by
    intro p _ hcycle
    obtain ⟨q, hq, -⟩ := TransGen.head'_iff.mp hcycle
    obtain ⟨r, -, hr⟩ := TransGen.tail'_iff.mp hcycle
    have hfinal : Final smallHost (Next smallHost) libM mdadm := (small_needs hr).2 ▸ (small_needs hq).1
    have hsame : mdadm = libMFile := hfinal.next_unique ⟨.single small_step, small_no_link (.inr (.inr rfl))⟩
    revert hsame
    decide
  links := by
    intro p hp q l hq hl
    have hlib : q = libM := by
      obtain rfl | hq := reflTransGen_iff_eq_or_transGen.mp hq
      · by_contra hne
        have hno := small_no_link (p := q) (by have := small_processed hp; tauto)
        rw [hno] at hl
        cases hl
      · rw [(small_next (small_processed hp) hq).2, small_no_link (.inr (.inr rfl))] at hl
        cases hl
    subst hlib
    obtain rfl := Option.some.inj (small_link.symm.trans hl)
    exact ⟨libMFile, small_follow, small_step⟩

theorem small_laidOut : LaidOut smallHost id {e | InClosure smallHost (Next smallHost) smallList.lines e} where
  target := by
    intro e he
    have hmem := small_closure he
    simp only [smallPairs, List.mem_cons, List.not_mem_nil, or_false] at hmem
    obtain rfl | rfl | rfl | rfl | rfl := hmem
    · exact ⟨pathName_binBusybox, ⟨"busybox".toList, rfl⟩, by decide⟩
    · exact ⟨⟨["bin".toList], "sh".toList, by decide, ⟨by decide, by decide, by decide⟩, by decide⟩,
        ⟨"sh".toList, rfl⟩, by decide⟩
    · exact ⟨pathName_mdadm, ⟨"mdadm".toList, rfl⟩, by decide⟩
    · exact ⟨pathName_libM, ⟨"libm.so.6".toList, rfl⟩, by decide⟩
    · exact ⟨pathName_libMFile, ⟨textM, rfl⟩, by decide⟩
  source := by
    intro e he
    have hmem := small_closure he
    simp only [smallPairs, List.mem_cons, List.not_mem_nil, or_false] at hmem
    obtain rfl | rfl | rfl | rfl | rfl := hmem
    · exact .inr ⟨pathName_binBusybox, by decide +kernel⟩
    · exact .inl rfl
    · exact .inr ⟨pathName_mdadm, by decide +kernel⟩
    · exact .inr ⟨pathName_libM, by decide +kernel⟩
    · exact .inr ⟨pathName_libMFile, by decide +kernel⟩
  same := by
    intro e he e' he' hplace
    have hinj : ∀ e ∈ smallPairs, ∀ e' ∈ smallPairs, placeOf e.2 = placeOf e'.2 → e = e' := by decide +kernel
    rw [hinj e (small_closure he) e' (small_closure he') hplace]
  clear := by
    intro e he e' he'
    have hclear : ∀ e ∈ smallPairs, ∀ e' ∈ smallPairs, placeOf e.2 ∉ dirsOf e'.2 := by decide +kernel
    exact hclear e (small_closure he) e' (small_closure he')
  relative := by
    intro p l hp hl _
    have hlib : p = libM := by
      have hmem := small_closure hp
      simp only [smallPairs, List.mem_cons, List.not_mem_nil, or_false, Prod.mk.injEq] at hmem
      by_contra hne
      have hno : smallHost.link p = none := by
        obtain ⟨h, -⟩ | ⟨rfl, h⟩ | ⟨h, -⟩ | ⟨h, -⟩ | ⟨h, -⟩ := hmem
        · exact small_no_link (.inl h)
        · revert h
          decide
        · exact small_no_link (.inr (.inl h))
        · exact absurd h hne
        · exact small_no_link (.inr (.inr h))
      rw [hno] at hl
      cases hl
    subst hlib
    obtain rfl := Option.some.inj (small_link.symm.trans hl)
    have hsteps : stepsOf textM = [.down textM] := rfl
    refine ⟨⟨[], [.down textM], hsteps, fun s hs => absurd hs List.not_mem_nil, ?_⟩, ⟨textM, rfl⟩,
      by decide +kernel⟩
    intro s hs hup
    rw [List.mem_singleton.mp hs] at hup
    cases hup

theorem small_leads : ∃ limit fuel procfile t, makeBase smallHost limit fuel smallList.lines = some (some procfile) ∧
    copyBase smallHost id procfile = some t ∧ (∃ n, Leads t [] (stepsOf libM) n libMFile) ∧
    ∃ n, Leads t [] (stepsOf "/bin/sh".toList) (n + 1) binBusybox := by
  obtain ⟨limit, fuel, procfile, t, hmake, hcopy, hfiles, hlinks⟩ :=
    base_leads smallHost id smallList small_unwinds small_laidOut
  have hmdadm : Processed smallHost (Next smallHost) smallList.lines mdadm :=
    .listed (List.mem_cons_of_mem _ (List.mem_cons_of_mem _ (List.mem_cons_self ..))) rfl
  have hneeds : Needs smallHost (Next smallHost) mdadm libM := by
    refine ⟨mdadm, ⟨.refl, small_no_link (.inr (.inl rfl))⟩, ⟨lineM, ?_, lddEntry_lineM⟩, by decide⟩
    exact List.mem_singleton_self lineM
  obtain ⟨n, f, hf, hlib⟩ := hfiles libM libM (.library hmdadm hneeds) (by decide) (.inl rfl)
  have hsh : InClosure smallHost (Next smallHost) smallList.lines (busybox, "/bin/sh".toList) :=
    .busybox (List.mem_cons_of_mem _ (List.mem_cons_self ..)) rfl
  obtain ⟨n', f', hf', hbusybox⟩ := hlinks _ hsh (.listed (List.mem_cons_self ..) rfl)
  obtain rfl := hf.next_unique ⟨.single small_step, small_no_link (.inr (.inr rfl))⟩
  obtain rfl := hf'.next_unique ⟨.refl, small_no_link (.inl rfl)⟩
  exact ⟨limit, fuel, procfile, t, hmake, hcopy, ⟨n, hlib⟩, n', hbusybox⟩

end CgxLayer.Ramdisk

import CgxLayer.FileTree
import CgxLayer.Text
import Mathlib.Data.List.MinMax

namespace CgxLayer.Image

variable {F : Type}

structure Rootfs (F : Type) where
  parent : List Text
  name : Text
  tree : FileTree Text F
  rootDir : tree (parent ++ [name]) = some .dir
  closed : ∀ q n, tree (q ++ [n]) ≠ none → tree q = some .dir

-- `${IMAGE_ROOTFS}`
def Rootfs.base (im : Rootfs F) : List Text := im.parent ++ [im.name]

-- `${IMAGE_ROOTFS}-${partition}`
def Rootfs.part (im : Rootfs F) (partition : Text) : List Text :=
  im.parent ++ [im.name ++ '-' :: partition]

inductive Command where
  | rmRf (p : List Text)
  | mv (src dst : List Text)
  | mkdir (p : List Text)

def Command.run (t : FileTree Text F) : Command → Option (FileTree Text F)
  | .rmRf p => some (FileTree.remove t p)
  | .mv src dst => FileTree.rename t src dst
  | .mkdir p => FileTree.mkdir t p

-- The commands run under `set -e`.
def run (t : FileTree Text F) (cmds : List Command) : Option (FileTree Text F) := cmds.foldlM Command.run t

def splitcmds (im : Rootfs F) (path : Text → List Text) (partition : Text) : List Command :=
  [.rmRf (im.part partition), .mv (im.base ++ path partition) (im.part partition),
    .mkdir (im.base ++ path partition)]

def getSplitcmds (im : Rootfs F) (path : Text → List Text) (partitions : List Text) : List Command :=
  partitions.flatMap (fun partition => if partition = "base".toList then [] else splitcmds im path partition)

def nonBase (partitions : List Text) : List Text := partitions.filter (· ≠ "base".toList)

structure Partitioning (im : Rootfs F) where
  path : Text → List Text
  partitions : List Text
  distinct : (nonBase partitions).Pairwise (fun p p' => path p ≠ path p')
  existing : ∀ p ∈ nonBase partitions, im.tree (im.base ++ path p) = some .dir

def Inside (path : Text → List Text) (p : Text) (q : List Text) : Prop := path p <+: q ∧ path p ≠ q

instance (path : Text → List Text) (p : Text) (q : List Text) : Decidable (Inside path p q) :=
  inferInstanceAs (Decidable (_ ∧ _))

def DeepestAbove (path : Text → List Text) (ps : List Text) (p : Text) (q : List Text) : Prop :=
  Inside path p q ∧ ∀ p' ∈ ps, Inside path p' q → path p' <+: path p

instance (path : Text → List Text) (ps : List Text) (p : Text) (q : List Text) :
    Decidable (DeepestAbove path ps p q) := inferInstanceAs (Decidable (_ ∧ _))

/-- Every node of the root file system below the tree of the partition with the deepest path above
it, a partition's own path in the tree that encloses it; all other files as before. -/
def distributed (im : Rootfs F) (path : Text → List Text) (ps : List Text) : FileTree Text F := fun x =>
  if im.base <+: x then
    if ∃ p ∈ ps, Inside path p (x.drop im.base.length) then none else im.tree x
  else
    match ps.find? (fun p => im.part p <+: x) with
    | none => im.tree x
    | some p =>
      let q := path p ++ x.drop (im.part p).length
      if q = path p ∨ DeepestAbove path ps p q then im.tree (im.base ++ q) else none

def InnerFirst (path : Text → List Text) (ps : List Text) : Prop :=
  ps.Pairwise (fun p p' => ¬ path p <+: path p')

variable {im : Rootfs F} {path : Text → List Text} {ps : List Text}

theorem eq_of_sibling {parent x : List Text} {a b : Text} (ha : parent ++ [a] <+: x)
    (hb : parent ++ [b] <+: x) : a = b := by
  have hpre := List.prefix_of_prefix_length_le ha hb (by simp)
  have heq := hpre.eq_of_length (by simp)
  exact List.singleton_inj.mp (List.append_cancel_left heq)

theorem part_inj {x : List Text} {p p' : Text} (hp : im.part p <+: x) (hp' : im.part p' <+: x) : p = p' := by
  have h := List.append_cancel_left (eq_of_sibling hp hp')
  exact (List.cons.inj h).2

theorem base_not_part {x : List Text} (hb : im.base <+: x) (p : Text) : ¬ im.part p <+: x := by
  intro hp
  have h := eq_of_sibling hb hp
  have hlen := congrArg List.length h
  simp at hlen

theorem distributed_base (q : List Text) : distributed im path ps (im.base ++ q) =
    if ∃ p ∈ ps, Inside path p q then none else im.tree (im.base ++ q) := by
  rw [distributed, if_pos (List.prefix_append _ _), List.drop_left]

theorem distributed_part {p : Text} (hp : p ∈ ps) (r : List Text) :
    distributed im path ps (im.part p ++ r) =
      if r = [] ∨ DeepestAbove path ps p (path p ++ r) then im.tree (im.base ++ (path p ++ r)) else none := by
  have hpre : im.part p <+: im.part p ++ r := List.prefix_append _ _
  have hbase : ¬ im.base <+: im.part p ++ r := fun h => base_not_part h p hpre
  rw [distributed, if_neg hbase]
  cases hfind : ps.find? (fun p' => im.part p' <+: im.part p ++ r) with
  | none => exact absurd hpre (by simpa using List.find?_eq_none.mp hfind p hp)
  | some p' =>
    have hfound : im.part p' <+: im.part p ++ r := by simpa using List.find?_some hfind
    have hp' : p' = p := part_inj hfound hpre
    subst hp'
    simp only [List.drop_left, List.append_right_eq_self]

theorem distributed_other {x : List Text} (hb : ¬ im.base <+: x) (hp : ∀ p ∈ ps, ¬ im.part p <+: x) :
    distributed im path ps x = im.tree x := by
  rw [distributed, if_neg hb]
  have hfind : ps.find? (fun p => im.part p <+: x) = none :=
    List.find?_eq_none.mpr (fun p hmem h => hp p hmem (of_decide_eq_true h))
  rw [hfind]

theorem distributed_nil : distributed im path [] = im.tree := by
  funext x
  simp [distributed]

theorem Rootfs.parentDir (im : Rootfs F) : im.tree im.parent = some .dir := by
  apply im.closed im.parent im.name
  rw [im.rootDir]
  exact Option.some_ne_none _

theorem part_not_base (p : Text) (q : List Text) : ¬ im.part p <+: im.base ++ q :=
  base_not_part (List.prefix_append _ _) p

theorem base_not_parent : ¬ im.base <+: im.parent := by
  intro h
  have hle := h.length_le
  simp only [Rootfs.base, List.length_append, List.length_singleton] at hle
  omega

theorem part_not_parent (p : Text) : ¬ im.part p <+: im.parent := by
  intro h
  have hle := h.length_le
  simp only [Rootfs.part, List.length_append, List.length_singleton] at hle
  omega

theorem part_dropLast (p : Text) : (im.part p).dropLast = im.parent := List.dropLast_concat

theorem base_prefix_iff {p q : List Text} : im.base ++ p <+: im.base ++ q ↔ p <+: q :=
  List.prefix_append_right_inj _

theorem distributed_parent : distributed im path ps im.parent = some .dir := by
  rw [distributed_other base_not_parent (fun p _ => part_not_parent p), im.parentDir]

theorem distributed_path {p : Text} (hdir : im.tree (im.base ++ path p) = some .dir)
    (hout : ∀ p' ∈ ps, ¬ path p' <+: path p) : distributed im path ps (im.base ++ path p) = some .dir := by
  rw [distributed_base, if_neg, hdir]
  rintro ⟨p', hp', hin⟩
  exact hout p' hp' hin.1

theorem distributed_enclosing {p : Text} (hdir : im.tree (im.base ++ path p) = some .dir)
    (hout : ∀ p' ∈ ps, ¬ path p' <+: path p) :
    distributed im path ps (im.base ++ path p).dropLast = some .dir := by
  rcases List.eq_nil_or_concat (path p) with hnil | ⟨q, n, hq⟩
  · rw [hnil, List.append_nil, Rootfs.base, List.dropLast_concat, distributed_parent]
  · rw [List.concat_eq_append] at hq
    have hdrop : (im.base ++ path p).dropLast = im.base ++ q := by
      rw [hq, ← List.append_assoc, List.dropLast_concat]
    rw [hdrop, distributed_base, if_neg]
    · apply im.closed (im.base ++ q) n
      rw [List.append_assoc, ← hq, hdir]
      exact Option.some_ne_none _
    · rintro ⟨p', hp', hin⟩
      apply hout p' hp'
      rw [hq]
      exact hin.1.trans (List.prefix_append _ _)

def moved (im : Rootfs F) (path : Text → List Text) (p : Text) (t : FileTree Text F) : FileTree Text F :=
  (t.remove (im.part p)).move (im.base ++ path p) (im.part p)

theorem moved_part {p : Text} {t : FileTree Text F} (r : List Text) :
    moved im path p t (im.part p ++ r) = t (im.base ++ (path p ++ r)) := by
  rw [moved, FileTree.move, if_pos (List.prefix_append _ _), List.drop_left, FileTree.remove,
    List.append_assoc, if_neg (part_not_base p _)]

theorem moved_base {p : Text} {t : FileTree Text F} (q : List Text) :
    moved im path p t (im.base ++ q) = if path p <+: q then none else t (im.base ++ q) := by
  rw [moved, FileTree.move, if_neg (part_not_base p q)]
  simp only [base_prefix_iff, FileTree.remove, if_neg (part_not_base p q)]

theorem moved_other {p : Text} {t : FileTree Text F} {x : List Text} (hb : ¬ im.base <+: x)
    (hp : ¬ im.part p <+: x) : moved im path p t x = t x := by
  have hsrc : ¬ im.base ++ path p <+: x := fun h => hb ((List.prefix_append _ _).trans h)
  rw [moved, FileTree.move, if_neg hp, if_neg hsrc, FileTree.remove, if_neg hp]

theorem deepestAbove_snoc {p p' : Text} (hout : ¬ path p' <+: path p) (q : List Text) :
    DeepestAbove path (ps ++ [p]) p' q ↔ DeepestAbove path ps p' q := by
  constructor
  · intro h
    exact ⟨h.1, fun a ha => h.2 a (List.mem_append_left _ ha)⟩
  · intro h
    refine ⟨h.1, ?_⟩
    intro a ha hin
    rcases List.mem_append.mp ha with ha | ha
    · exact h.2 a ha hin
    · rw [List.mem_singleton.mp ha] at hin ⊢
      exact (List.prefix_or_prefix_of_prefix hin.1 h.1.1).resolve_right hout

theorem deepestAbove_last {p : Text} (hout : ∀ p' ∈ ps, ¬ path p' <+: path p) {r : List Text} (hr : r ≠ []) :
    DeepestAbove path (ps ++ [p]) p (path p ++ r) ↔ ¬ ∃ p' ∈ ps, Inside path p' (path p ++ r) := by
  have hin : Inside path p (path p ++ r) :=
    ⟨List.prefix_append _ _, fun h => hr (List.append_right_eq_self.mp h.symm)⟩
  constructor
  · rintro h ⟨p', hp', hin'⟩
    exact hout p' hp' (h.2 p' (List.mem_append_left _ hp') hin')
  · intro h
    refine ⟨hin, ?_⟩
    intro a ha hina
    rcases List.mem_append.mp ha with ha | ha
    · exact absurd ⟨a, ha, hina⟩ h
    · rw [List.mem_singleton.mp ha]

theorem inside_snoc (p : Text) (q : List Text) :
    (∃ p' ∈ ps ++ [p], Inside path p' q) ↔ (∃ p' ∈ ps, Inside path p' q) ∨ Inside path p q := by
  simp only [List.mem_append, List.mem_singleton, or_and_right, exists_or, exists_eq_left]

theorem distributed_snoc_base {p : Text} (hdir : im.tree (im.base ++ path p) = some .dir)
    (hout : ∀ p' ∈ ps, ¬ path p' <+: path p) (q : List Text) :
    distributed im path (ps ++ [p]) (im.base ++ q) =
      if q = path p then some .dir else moved im path p (distributed im path ps) (im.base ++ q) := by
  simp only [distributed_base, moved_base, inside_snoc]
  by_cases hq : q = path p
  · subst hq
    have hnone : ¬ ∃ p' ∈ ps, Inside path p' (path p) := fun ⟨p', hp', hin⟩ => hout p' hp' hin.1
    have hself : ¬ Inside path p (path p) := fun hin => hin.2 rfl
    simp only [hnone, hself, or_self, if_false, if_true, hdir]
  · by_cases hpre : path p <+: q
    · have hin : Inside path p q := ⟨hpre, fun h => hq h.symm⟩
      simp only [hin, or_true, if_true, hq, hpre, if_false]
    · have hin : ¬ Inside path p q := fun hin => hpre hin.1
      simp only [hin, or_false, hq, hpre, if_false]

theorem distributed_snoc_part {p : Text} (hout : ∀ p' ∈ ps, ¬ path p' <+: path p) (r : List Text) :
    distributed im path (ps ++ [p]) (im.part p ++ r) =
      moved im path p (distributed im path ps) (im.part p ++ r) := by
  rw [distributed_part (List.mem_append_right _ (List.mem_singleton_self p)), moved_part, distributed_base]
  by_cases hr : r = []
  · have hnone : ¬ ∃ p' ∈ ps, Inside path p' (path p ++ r) := by
      rintro ⟨p', hp', hin⟩
      rw [hr, List.append_nil] at hin
      exact hout p' hp' hin.1
    rw [if_pos (.inl hr), if_neg hnone]
  · simp only [deepestAbove_last hout hr, hr, false_or, ite_not]

theorem distributed_snoc_other {p : Text} (hout : ∀ p' ∈ ps, ¬ path p' <+: path p) {x : List Text}
    (hbase : ¬ im.base <+: x) (hpart : ¬ im.part p <+: x) :
    distributed im path (ps ++ [p]) x = distributed im path ps x := by
  by_cases hsome : ∃ p' ∈ ps, im.part p' <+: x
  · obtain ⟨p', hp', r, rfl⟩ := hsome
    simp only [distributed_part (List.mem_append_left [p] hp'), distributed_part hp',
      deepestAbove_snoc (hout p' hp')]
  · have hnone : ∀ p' ∈ ps, ¬ im.part p' <+: x := fun p' hp' h => hsome ⟨p', hp', h⟩
    rw [distributed_other hbase hnone, distributed_other hbase]
    intro p' hp'
    rcases List.mem_append.mp hp' with hp' | hp'
    · exact hnone p' hp'
    · rw [List.mem_singleton.mp hp']
      exact hpart

theorem distributed_snoc {p : Text} (hdir : im.tree (im.base ++ path p) = some .dir)
    (hout : ∀ p' ∈ ps, ¬ path p' <+: path p) (x : List Text) :
    distributed im path (ps ++ [p]) x =
      if x = im.base ++ path p then some .dir else moved im path p (distributed im path ps) x := by
  by_cases hbase : im.base <+: x
  · obtain ⟨q, rfl⟩ := hbase
    simp only [distributed_snoc_base hdir hout, List.append_cancel_left_eq]
  · have hne : x ≠ im.base ++ path p := fun h => hbase (h ▸ List.prefix_append _ _)
    rw [if_neg hne]
    by_cases hpart : im.part p <+: x
    · obtain ⟨r, rfl⟩ := hpart
      exact distributed_snoc_part hout r
    · rw [moved_other hbase hpart, distributed_snoc_other hout hbase hpart]

theorem moved_enclosing {p : Text} (hdir : im.tree (im.base ++ path p) = some .dir)
    (hout : ∀ p' ∈ ps, ¬ path p' <+: path p) :
    moved im path p (distributed im path ps) (im.base ++ path p).dropLast = some .dir := by
  rw [← distributed_enclosing hdir hout]
  have hpart : ¬ im.part p <+: (im.base ++ path p).dropLast :=
    fun h => part_not_base p _ (h.trans (List.dropLast_prefix _))
  have hsrc : ¬ im.base ++ path p <+: (im.base ++ path p).dropLast := by
    intro h
    have hle := h.length_le
    simp only [Rootfs.base, List.length_dropLast, List.length_append, List.length_singleton] at hle
    omega
  rw [moved, FileTree.move, if_neg hpart, if_neg hsrc, FileTree.remove, if_neg hpart]

theorem run_splitcmds {p : Text} (hdir : im.tree (im.base ++ path p) = some .dir)
    (hout : ∀ p' ∈ ps, ¬ path p' <+: path p) :
    run (distributed im path ps) (splitcmds im path p) = some (distributed im path (ps ++ [p])) := by
  have hpart (q : List Text) : ((distributed im path ps).remove (im.part p)) (im.base ++ q) =
      distributed im path ps (im.base ++ q) := if_neg (part_not_base p q)
  have hmv : FileTree.rename ((distributed im path ps).remove (im.part p)) (im.base ++ path p) (im.part p) =
      some (moved im path p (distributed im path ps)) := by
    apply FileTree.rename_eq
    · rw [hpart, distributed_path hdir hout]
    · exact if_pos (List.prefix_refl _)
    · rw [part_dropLast]
      exact (if_neg (part_not_parent p)).trans distributed_parent
    · intro h
      exact base_not_part ((List.prefix_append _ _).trans h) p (List.prefix_refl _)
  have hmkdir : FileTree.mkdir (moved im path p (distributed im path ps)) (im.base ++ path p) =
      some (distributed im path (ps ++ [p])) := by
    rw [FileTree.mkdir_eq, funext (distributed_snoc hdir hout)]
    · rw [moved_base, if_pos (List.prefix_refl _)]
    · exact moved_enclosing hdir hout
  simp only [run, splitcmds, List.foldlM_cons, List.foldlM_nil, Command.run, Option.bind_eq_bind,
    Option.bind_some, hmv, hmkdir]
  rfl

theorem run_splitcmds_none {p p' : Text} (hp' : p' ∈ ps) (hin : Inside path p' (path p)) :
    run (distributed im path ps) (splitcmds im path p) = none := by
  have hsrc : ((distributed im path ps).remove (im.part p)) (im.base ++ path p) = none := by
    rw [FileTree.remove, if_neg (part_not_base p _), distributed_base, if_pos ⟨p', hp', hin⟩]
  simp only [run, splitcmds, List.foldlM_cons, Command.run, Option.bind_eq_bind, Option.bind_some,
    FileTree.rename_of_none hsrc, Option.bind_none]

theorem run_append (t : FileTree Text F) (as bs : List Command) :
    run t (as ++ bs) = (run t as).bind (fun t' => run t' bs) := List.foldlM_append

theorem getSplitcmds_eq (partitions : List Text) :
    getSplitcmds im path partitions = (nonBase partitions).flatMap (splitcmds im path) := by
  induction partitions with
  | nil => rfl
  | cons p partitions ih =>
    rw [getSplitcmds, List.flatMap_cons, nonBase, List.filter_cons]
    by_cases hp : p = "base".toList
    · rw [if_pos hp, if_neg (by simpa using hp)]
      exact ih
    · rw [if_neg hp, if_pos (by simpa using hp), List.flatMap_cons]
      exact congrArg _ ih

theorem innerFirst_snoc {p : Text} :
    InnerFirst path (ps ++ [p]) ↔ InnerFirst path ps ∧ ∀ p' ∈ ps, ¬ path p' <+: path p := by
  simp [InnerFirst, List.pairwise_append]

theorem run_flatMap (hdist : ps.Pairwise (fun p p' => path p ≠ path p'))
    (hdirs : ∀ p ∈ ps, im.tree (im.base ++ path p) = some .dir) :
    (InnerFirst path ps → run im.tree (ps.flatMap (splitcmds im path)) = some (distributed im path ps)) ∧
      (¬ InnerFirst path ps → run im.tree (ps.flatMap (splitcmds im path)) = none) := by
  induction ps using List.reverseRecOn with
  | nil =>
    refine ⟨fun _ => ?_, fun h => absurd List.Pairwise.nil h⟩
    rw [distributed_nil]
    rfl
  | append_singleton ps p ih =>
    rw [List.pairwise_append] at hdist
    have hbefore := ih hdist.1 (fun p' hp' => hdirs p' (List.mem_append_left _ hp'))
    have hdir := hdirs p (List.mem_append_right _ (List.mem_singleton_self p))
    have hne : ∀ p' ∈ ps, path p' ≠ path p := fun p' hp' => hdist.2.2 p' hp' p (List.mem_singleton_self p)
    rw [List.flatMap_append, List.flatMap_singleton, run_append, innerFirst_snoc]
    by_cases hin : InnerFirst path ps
    · rw [hbefore.1 hin, Option.bind_some]
      refine ⟨fun h => run_splitcmds hdir h.2, ?_⟩
      intro h
      have hsome : ∃ p' ∈ ps, path p' <+: path p := by
        by_contra hno
        exact h ⟨hin, fun p' hp' hpre => hno ⟨p', hp', hpre⟩⟩
      obtain ⟨p', hp', hpre⟩ := hsome
      exact run_splitcmds_none hp' ⟨hpre, hne p' hp'⟩
    · rw [hbefore.2 hin]
      exact ⟨fun h => absurd h.1 hin, fun _ => rfl⟩

theorem distributed_congr {ps' : List Text} (h : ∀ p, p ∈ ps ↔ p ∈ ps') :
    distributed im path ps = distributed im path ps' := by
  have habove (p : Text) (q : List Text) : DeepestAbove path ps p q ↔ DeepestAbove path ps' p q := by
    simp only [DeepestAbove, h]
  funext x
  by_cases hbase : im.base <+: x
  · obtain ⟨q, rfl⟩ := hbase
    simp only [distributed_base, h]
  · by_cases hsome : ∃ p ∈ ps, im.part p <+: x
    · obtain ⟨p, hp, r, rfl⟩ := hsome
      simp only [distributed_part hp, distributed_part ((h p).mp hp), habove]
    · have hnone : ∀ p ∈ ps, ¬ im.part p <+: x := fun p hp hpre => hsome ⟨p, hp, hpre⟩
      rw [distributed_other hbase hnone, distributed_other hbase (fun p hp => hnone p ((h p).mpr hp))]

theorem exists_deepestAbove {q : List Text} (h : ∃ p ∈ ps, Inside path p q) :
    ∃ p ∈ ps, DeepestAbove path ps p q := by
  obtain ⟨p₀, hp₀, hin₀⟩ := h
  have hmem₀ : p₀ ∈ ps.filter (fun p => Inside path p q) := List.mem_filter.mpr ⟨hp₀, decide_eq_true hin₀⟩
  obtain ⟨p, hmax⟩ : ∃ p, p ∈ (ps.filter (fun p => Inside path p q)).argmax (fun p => (path p).length) := by
    apply Option.ne_none_iff_exists'.mp
    intro hnone
    rw [List.argmax_eq_none.mp hnone] at hmem₀
    cases hmem₀
  have hmem := List.mem_filter.mp (List.argmax_mem hmax)
  have hin : Inside path p q := of_decide_eq_true hmem.2
  refine ⟨p, hmem.1, hin, ?_⟩
  intro p' hp' hin'
  have hmem' : p' ∈ ps.filter (fun p => Inside path p q) := List.mem_filter.mpr ⟨hp', decide_eq_true hin'⟩
  have hle : (path p').length ≤ (path p).length := List.le_of_mem_argmax (f := fun p => (path p).length) hmem' hmax
  exact List.prefix_of_prefix_length_le hin'.1 hin.1 hle

/-- `none` is the tree of the base partition. -/
def HeldIn (im : Rootfs F) (path : Text → List Text) (ps : List Text) (q : List Text) (f : F) :
    Option Text → Prop
  | none => distributed im path ps (im.base ++ q) = some (.file f)
  | some p => p ∈ ps ∧ ∃ r, q = path p ++ r ∧ distributed im path ps (im.part p ++ r) = some (.file f)

theorem deepestAbove_of_heldIn (hdirs : ∀ p ∈ ps, im.tree (im.base ++ path p) = some .dir)
    {q : List Text} {f : F} {p : Text} (h : HeldIn im path ps q f (some p)) :
    p ∈ ps ∧ DeepestAbove path ps p q := by
  obtain ⟨hp, r, rfl, hfile⟩ := h
  refine ⟨hp, ?_⟩
  rw [distributed_part hp] at hfile
  split_ifs at hfile with hcase
  rcases hcase with rfl | hcase
  · rw [List.append_nil, hdirs p hp] at hfile
    cases hfile
  · exact hcase

theorem held_once (hdist : ps.Pairwise (fun p p' => path p ≠ path p'))
    (hdirs : ∀ p ∈ ps, im.tree (im.base ++ path p) = some .dir) {q : List Text} {f : F}
    (hfile : im.tree (im.base ++ q) = some (.file f)) : ∃! o, HeldIn im path ps q f o := by
  have hnodup : (ps.map path).Nodup := List.pairwise_map.mpr hdist
  by_cases hsome : ∃ p ∈ ps, Inside path p q
  · obtain ⟨p, hp, habove⟩ := exists_deepestAbove hsome
    obtain ⟨r, rfl⟩ := habove.1.1
    refine ⟨some p, ⟨hp, r, rfl, ?_⟩, ?_⟩
    · rw [distributed_part hp, if_pos (.inr habove), hfile]
    · intro o ho
      cases o with
      | none =>
        change distributed im path ps (im.base ++ (path p ++ r)) = some (.file f) at ho
        rw [distributed_base, if_pos hsome] at ho
        cases ho
      | some p' =>
        obtain ⟨hp', habove'⟩ := deepestAbove_of_heldIn hdirs ho
        have hle := (habove.2 p' hp' habove'.1).length_le
        have hge := (habove'.2 p hp habove.1).length_le
        have hpath : path p' = path p := (habove.2 p' hp' habove'.1).eq_of_length (by omega)
        rw [List.inj_on_of_nodup_map hnodup hp' hp hpath]
  · refine ⟨none, ?_, ?_⟩
    · change distributed im path ps (im.base ++ q) = _
      rw [distributed_base, if_neg hsome, hfile]
    · intro o ho
      cases o with
      | none => rfl
      | some p =>
        obtain ⟨hp, habove⟩ := deepestAbove_of_heldIn hdirs ho
        exact absurd ⟨p, hp, habove.1⟩ hsome

theorem splits_iff_innerFirst (ps : Partitioning im) :
    (run im.tree (getSplitcmds im ps.path ps.partitions) =
        some (distributed im ps.path (nonBase ps.partitions)) ↔
      InnerFirst ps.path (nonBase ps.partitions)) ∧
    (∀ q f, im.tree (im.base ++ q) = some (.file f) →
      ∃! o, HeldIn im ps.path (nonBase ps.partitions) q f o) ∧
    ∀ listed, listed.Perm ps.partitions →
      distributed im ps.path (nonBase listed) = distributed im ps.path (nonBase ps.partitions) := by
  have hrun := run_flatMap ps.distinct ps.existing
  refine ⟨?_, fun q f hfile => held_once ps.distinct ps.existing hfile, ?_⟩
  · rw [getSplitcmds_eq]
    refine ⟨?_, hrun.1⟩
    intro h
    by_contra hno
    rw [hrun.2 hno] at h
    cases h
  · intro listed hperm
    apply distributed_congr
    intro p
    rw [nonBase, nonBase, List.mem_filter, List.mem_filter, hperm.mem_iff]

def treeOf (dirs : List (List Text)) : FileTree Text Unit := fun q => if q ∈ dirs then some .dir else none

theorem treeOf_closed {dirs : List (List Text)} (h : ∀ d ∈ dirs, d.dropLast ∈ dirs) (q : List Text) (n : Text)
    (hq : treeOf dirs (q ++ [n]) ≠ none) : treeOf dirs q = some .dir := by
  have hmem : q ++ [n] ∈ dirs := by
    by_contra hno
    exact hq (if_neg hno)
  have hparent := h _ hmem
  rw [List.dropLast_concat] at hparent
  exact if_pos hparent

def usrDirs : List (List Text) :=
  [[], ["rootfs".toList], ["rootfs".toList, "usr".toList],
    ["rootfs".toList, "usr".toList, "local".toList]]

def usrImage : Rootfs Unit where
  parent := []
  name := "rootfs".toList
  tree := treeOf usrDirs
  rootDir := rfl
  closed := treeOf_closed (by decide)

def usrPath (p : Text) : List Text :=
  if p = "usr".toList then ["usr".toList] else ["usr".toList, "local".toList]

def outerFirst : Partitioning usrImage where
  path := usrPath
  partitions := ["base".toList, "usr".toList, "local".toList]
  distinct := by decide
  existing := by
    have hdirs : ∀ p ∈ nonBase ["base".toList, "usr".toList, "local".toList],
        usrImage.base ++ usrPath p ∈ usrDirs := by decide
    intro p hp
    exact if_pos (hdirs p hp)

theorem outer_first_fails : ¬ ∀ (im : Rootfs Unit) (ps : Partitioning im),
    run im.tree (getSplitcmds im ps.path ps.partitions) =
      some (distributed im ps.path (nonBase ps.partitions)) := by
  intro h
  have hfails : (run usrImage.tree (getSplitcmds usrImage usrPath outerFirst.partitions)).isNone = true := by
    decide
  rw [show usrPath = outerFirst.path from rfl, h usrImage outerFirst] at hfails
  cases hfails

end CgxLayer.Image

import CgxLayer.FileTree

/-! The walk along a path in a tree with symbolic links. -/

namespace CgxLayer.PathWalk

variable {N F : Type}

inductive Step (N : Type) where
  | stay
  | up
  | down (name : N)

def Step.next (dir : List N) : Step N → List N
  | .stay => dir
  | .up => dir.dropLast
  | .down name => dir ++ [name]

def walk (dir : List N) (steps : List (Step N)) : List N := steps.foldl Step.next dir

def trail : List N → List (Step N) → List (List N)
  | _, [] => []
  | dir, s :: steps => s.next dir :: trail (s.next dir) steps

def Step.leaves (dir : List N) : Step N → Bool
  | .up => dir.isEmpty
  | _ => false

-- no `..` goes above the top directory
def within : List N → List (Step N) → Bool
  | _, [] => true
  | dir, s :: steps => !s.leaves dir && within (s.next dir) steps

/-- A node that is no directory. -/
inductive Leaf (N F : Type) where
  | file (content : F)
  | link (absolute : Bool) (text : List (Step N))

/-- The path leads from the directory, over so many links, to a file. -/
inductive Leads (t : FileTree N (Leaf N F)) : List N → List (Step N) → ℕ → F → Prop where
  | stay {dir : List N} {steps : List (Step N)} {n : ℕ} {f : F} : Leads t dir steps n f →
      Leads t dir (.stay :: steps) n f
  | up {dir : List N} {steps : List (Step N)} {n : ℕ} {f : F} : Leads t dir.dropLast steps n f →
      Leads t dir (.up :: steps) n f
  | down {dir : List N} {name : N} {steps : List (Step N)} {n : ℕ} {f : F} : t (dir ++ [name]) = some .dir →
      Leads t (dir ++ [name]) steps n f → Leads t dir (.down name :: steps) n f
  | link {dir : List N} {name : N} {steps : List (Step N)} {absolute : Bool} {text : List (Step N)} {n : ℕ} {f : F} :
      t (dir ++ [name]) = some (.file (.link absolute text)) →
      Leads t (if absolute then [] else dir) (text ++ steps) n f → Leads t dir (.down name :: steps) (n + 1) f
  | file {dir : List N} {name : N} {f : F} : t (dir ++ [name]) = some (.file (.file f)) →
      Leads t dir [.down name] 0 f

/-- A path that goes into no directory to leave it again. -/
def Straight (steps : List (Step N)) : Prop :=
  ∃ ups downs, steps = ups ++ downs ∧ (∀ s ∈ ups, ∀ name, s ≠ .down name) ∧ ∀ s ∈ downs, s ≠ .up

section

variable [DecidableEq N]

/-- `mkdir -p`, a file or a link in the way making it fail. -/
def mkdirs (t : FileTree N (Leaf N F)) (dir : List N) (steps : List (Step N)) : Option (FileTree N (Leaf N F)) :=
  if (trail dir steps).any t.isFile then none
  else some (fun q => if t q = none ∧ q ∈ trail dir steps then some .dir else t q)

theorem exists_mkdirs {t : FileTree N (Leaf N F)} {dir : List N} {steps : List (Step N)}
    (h : ∀ q ∈ trail dir steps, ∀ leaf, t q ≠ some (.file leaf)) : ∃ t', mkdirs t dir steps = some t' ∧
      (∀ q ∈ trail dir steps, t q = none → t' q = some .dir) ∧
        ∀ q, t q ≠ none ∨ q ∉ trail dir steps → t' q = t q := by
  have hfree : (trail dir steps).any t.isFile ≠ true := by
    rw [ne_eq, List.any_eq_true]
    rintro ⟨q, hq, hfile⟩
    unfold FileTree.isFile at hfile
    split at hfile
    · rename_i leaf hleaf
      exact h q hq leaf hleaf
    · cases hfile
  refine ⟨_, if_neg hfree, fun q hq hnone => if_pos ⟨hnone, hq⟩, fun q hq => if_neg ?_⟩
  rintro ⟨hnone, hmem⟩
  obtain hsome | hout := hq
  · exact hsome hnone
  · exact hout hmem

end

variable {dir : List N} {steps : List (Step N)}

theorem walk_cons (s : Step N) : walk dir (s :: steps) = walk (s.next dir) steps := rfl

theorem walk_append (more : List (Step N)) : walk dir (steps ++ more) = walk (walk dir steps) more :=
  List.foldl_append

theorem walk_concat (s : Step N) : walk dir (steps ++ [s]) = s.next (walk dir steps) := walk_append [s]

theorem trail_append (more : List (Step N)) :
    trail dir (steps ++ more) = trail dir steps ++ trail (walk dir steps) more := by
  induction steps generalizing dir with
  | nil => rfl
  | cons s steps ih => rw [List.cons_append, trail, ih, trail, walk_cons, List.cons_append]

theorem prefix_walk {q : List N} (h : q <+: walk dir steps) : q <+: dir ∨ q ∈ trail dir steps := by
  induction steps generalizing dir with
  | nil => exact .inl h
  | cons s steps ih =>
    obtain hnext | hlater := ih h
    · cases s with
      | stay => exact .inl hnext
      | up => exact .inl (hnext.trans (List.dropLast_prefix dir))
      | down name =>
        obtain rfl | hdir := List.prefix_concat_iff.mp hnext
        · exact .inr (List.mem_cons_self ..)
        · exact .inl hdir
    · exact .inr (List.mem_cons_of_mem _ hlater)

theorem trail_up {q : List N} (h : ∀ s ∈ steps, ∀ name, s ≠ .down name) (hq : q ∈ trail dir steps) : q <+: dir := by
  induction steps generalizing dir with
  | nil => cases hq
  | cons s steps ih =>
    obtain ⟨hs, hsteps⟩ := List.forall_mem_cons.mp h
    have hnext : s.next dir <+: dir := by
      cases s with
      | stay => exact List.prefix_rfl
      | up => exact List.dropLast_prefix dir
      | down name => exact absurd rfl (hs name)
    obtain rfl | hq := List.mem_cons.mp hq
    · exact hnext
    · exact (ih hsteps hq).trans hnext

theorem prefix_walk_down (h : ∀ s ∈ steps, s ≠ .up) : dir <+: walk dir steps := by
  induction steps generalizing dir with
  | nil => exact List.prefix_rfl
  | cons s steps ih =>
    obtain ⟨hs, hsteps⟩ := List.forall_mem_cons.mp h
    apply List.IsPrefix.trans _ (ih hsteps)
    cases s with
    | stay => exact List.prefix_rfl
    | up => exact absurd rfl hs
    | down name => exact List.prefix_append dir [name]

theorem trail_down {q : List N} (h : ∀ s ∈ steps, s ≠ .up) (hq : q ∈ trail dir steps) : q <+: walk dir steps := by
  induction steps generalizing dir with
  | nil => cases hq
  | cons s steps ih =>
    obtain ⟨-, hsteps⟩ := List.forall_mem_cons.mp h
    obtain rfl | hq := List.mem_cons.mp hq
    · exact prefix_walk_down hsteps
    · exact ih hsteps hq

theorem Straight.trail {q : List N} (h : Straight steps) (hq : q ∈ trail dir steps) :
    q <+: dir ∨ q <+: walk dir steps := by
  obtain ⟨ups, downs, rfl, hups, hdowns⟩ := h
  rw [trail_append] at hq
  rw [walk_append]
  obtain hq | hq := List.mem_append.mp hq
  · exact .inl (trail_up hups hq)
  · exact .inr (trail_down hdowns hq)

theorem Straight.init {s : Step N} (h : Straight (steps ++ [s])) : Straight steps := by
  obtain ⟨ups, downs, heq, hups, hdowns⟩ := h
  obtain rfl | ⟨downs, s', rfl⟩ := List.eq_nil_or_concat downs
  · rw [List.append_nil] at heq
    refine ⟨steps, [], (List.append_nil _).symm, fun s' hs' => hups s' ?_, fun _ hs' => absurd hs' List.not_mem_nil⟩
    rw [← heq]
    exact List.mem_append_left _ hs'
  · rw [List.concat_eq_append] at heq hdowns
    rw [← List.append_assoc] at heq
    exact ⟨ups, downs, (List.append_inj' heq rfl).1, hups, fun s' hs' => hdowns s' (List.mem_append_left _ hs')⟩

theorem leads_append {t : FileTree N (Leaf N F)} {more : List (Step N)} {n : ℕ} {f : F}
    (h : ∀ q ∈ trail dir steps, q = [] ∨ t q = some .dir) :
    Leads t dir (steps ++ more) n f ↔ Leads t (walk dir steps) more n f := by
  induction steps generalizing dir with
  | nil => rfl
  | cons s steps ih =>
    rw [trail, List.forall_mem_cons] at h
    rw [List.cons_append, walk_cons, ← ih h.2]
    cases s with
    | stay => exact ⟨fun hl => by cases hl; assumption, .stay⟩
    | up => exact ⟨fun hl => by cases hl; assumption, .up⟩
    | down name =>
      have hdir : t (dir ++ [name]) = some .dir := h.1.resolve_left (List.append_ne_nil_of_right_ne_nil _ (by simp))
      refine ⟨fun hl => ?_, .down hdir⟩
      generalize hall : Step.down name :: (steps ++ more) = all at hl
      cases hl with
      | stay => cases hall
      | up => cases hall
      | down _ hl =>
        cases hall
        exact hl
      | link hlink =>
        cases hall
        rw [hdir] at hlink
        cases hlink
      | file hfile =>
        obtain ⟨hname, -⟩ := List.cons.inj hall
        cases hname
        rw [hdir] at hfile
        cases hfile

end CgxLayer.PathWalk

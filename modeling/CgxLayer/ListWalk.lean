import CgxLayer.Acyclic
import Mathlib.Data.List.Basic

/-! Searches along a linked list that ends where it began. -/

namespace CgxLayer.ListWalk

open Relation

variable {A B E : Type}

/-- A search along linked nodes. A look at a node may itself have to search, so it has fuel. -/
structure Search (A B E : Type) where
  head : A
  next : A → Except E A
  look : ℕ → A → Option (Except E (Option B))
  steady : ∀ n m p r, n ≤ m → look n p = some r → look m p = some r

namespace Search

variable (s : Search A B E)

def run [DecidableEq A] : ℕ → A → Option (Except E (Option B))
  | 0, _ => none
  | fuel + 1, p =>
    if p = s.head then some (.ok none)
    else
      match s.look fuel p with
      | none => none
      | some (.error e) => some (.error e)
      | some (.ok (some b)) => some (.ok (some b))
      | some (.ok none) =>
        match s.next p with
        | .error e => some (.error e)
        | .ok q => run fuel q

def LooksAs (p : A) (r : Except E (Option B)) : Prop := ∃ n, s.look n p = some r

def Passes (p q : A) : Prop := p ≠ s.head ∧ s.LooksAs p (.ok none) ∧ s.next p = .ok q

inductive EndsAs : A → Except E (Option B) → Prop
  | head : EndsAs s.head (.ok none)
  | found {p : A} {b : B} : p ≠ s.head → s.LooksAs p (.ok (some b)) → EndsAs p (.ok (some b))
  | failed {p : A} {e : E} : p ≠ s.head → s.LooksAs p (.error e) → EndsAs p (.error e)
  | lost {p : A} {e : E} : p ≠ s.head → s.LooksAs p (.ok none) → s.next p = .error e → EndsAs p (.error e)

variable {s} {p q : A} {r : Except E (Option B)}

theorem LooksAs.unique {r' : Except E (Option B)} (h : s.LooksAs p r) (h' : s.LooksAs p r') : r = r' := by
  obtain ⟨n, hn⟩ := h
  obtain ⟨m, hm⟩ := h'
  have hboth := s.steady n (max n m) p r (le_max_left n m) hn
  rw [s.steady m (max n m) p r' (le_max_right n m) hm] at hboth
  exact (Option.some.inj hboth).symm

theorem Passes.unique {q' : A} (h : s.Passes p q) (h' : s.Passes p q') : q = q' :=
  Except.ok.inj (h.2.2.symm.trans h'.2.2)

theorem endsAs_or_passes (hp : p ≠ s.head → ∃ r, s.LooksAs p r) : (∃ r, s.EndsAs p r) ∨ ∃ q, s.Passes p q := by
  by_cases hhead : p = s.head
  · subst hhead
    exact .inl ⟨_, EndsAs.head⟩
  · obtain ⟨r, hr⟩ := hp hhead
    rcases r with e | (_ | b)
    · exact .inl ⟨_, .failed hhead hr⟩
    · cases hnext : s.next p with
      | error e => exact .inl ⟨_, .lost hhead hr hnext⟩
      | ok q => exact .inr ⟨q, hhead, hr, hnext⟩
    · exact .inl ⟨_, .found hhead hr⟩

theorem not_endsAs_of_passes (h : s.Passes p q) : ¬ s.EndsAs p r := by
  obtain ⟨hp, hlook, hnext⟩ := h
  intro hends
  cases hends with
  | head => exact hp rfl
  | found _ hfound => cases Except.ok.inj (hfound.unique hlook)
  | failed _ hfailed => cases hfailed.unique hlook
  | lost _ _ hlost =>
    rw [hnext] at hlost
    cases hlost

theorem looksAs_of_ends (h : s.EndsAs p r) (hp : p ≠ s.head) : ∃ r, s.LooksAs p r := by
  cases h with
  | head => exact absurd rfl hp
  | found _ hlook => exact ⟨_, hlook⟩
  | failed _ hlook => exact ⟨_, hlook⟩
  | lost _ hlook _ => exact ⟨_, hlook⟩

variable [DecidableEq A]

theorem run_head (n : ℕ) : s.run (n + 1) s.head = some (.ok none) := by
  rw [run, if_pos rfl]

theorem run_mono {n m : ℕ} (hnm : n ≤ m) (h : s.run n p = some r) : s.run m p = some r := by
  induction n generalizing m p with
  | zero => cases h
  | succ n ih =>
    obtain ⟨m, rfl⟩ : ∃ k, m = k + 1 := ⟨m - 1, by omega⟩
    rw [run] at h ⊢
    split_ifs at h ⊢ with hp
    · exact h
    · cases hlook : s.look n p with
      | none =>
        rw [hlook] at h
        cases h
      | some look =>
        rw [s.steady n m p look (by omega) hlook]
        rw [hlook] at h
        rcases look with e | (_ | b)
        · exact h
        · dsimp only at h ⊢
          cases hnext : s.next p with
          | error e =>
            rw [hnext] at h
            exact h
          | ok q =>
            rw [hnext] at h
            exact ih (by omega) h
        · exact h

theorem run_passes (h : s.Passes p q) (hq : ∃ n, s.run n q = some r) : ∃ n, s.run n p = some r := by
  obtain ⟨hp, ⟨n, hn⟩, hnext⟩ := h
  obtain ⟨m, hm⟩ := hq
  refine ⟨max n m + 1, ?_⟩
  rw [run, if_neg hp, s.steady n (max n m) p _ (le_max_left n m) hn, hnext]
  exact run_mono (le_max_right n m) hm

theorem run_endsAs (h : s.EndsAs p r) : ∃ n, s.run n p = some r := by
  cases h with
  | head => exact ⟨1, run_head 0⟩
  | found hp hlook =>
    obtain ⟨n, hn⟩ := hlook
    exact ⟨n + 1, by rw [run, if_neg hp, hn]⟩
  | failed hp hlook =>
    obtain ⟨n, hn⟩ := hlook
    exact ⟨n + 1, by rw [run, if_neg hp, hn]⟩
  | lost hp hlook hnext =>
    obtain ⟨n, hn⟩ := hlook
    exact ⟨n + 1, by rw [run, if_neg hp, hn, hnext]⟩

theorem run_cases {n : ℕ} (h : s.run (n + 1) p = some r) :
    s.EndsAs p r ∨ ∃ q, s.Passes p q ∧ s.run n q = some r := by
  rw [run] at h
  split_ifs at h with hp
  · cases h
    exact .inl (hp ▸ .head)
  · cases hlook : s.look n p with
    | none =>
      rw [hlook] at h
      cases h
    | some look =>
      rw [hlook] at h
      rcases look with e | (_ | b)
      · cases h
        exact .inl (.failed hp ⟨n, hlook⟩)
      · dsimp only at h
        cases hnext : s.next p with
        | error e =>
          rw [hnext] at h
          cases h
          exact .inl (.lost hp ⟨n, hlook⟩ hnext)
        | ok q =>
          rw [hnext] at h
          exact .inr ⟨q, ⟨hp, ⟨n, hlook⟩, hnext⟩, h⟩
      · cases h
        exact .inl (.found hp ⟨n, hlook⟩)

theorem run_iff : (∃ n, s.run n p = some r) ↔ ∃ q, ReflTransGen s.Passes p q ∧ s.EndsAs q r := by
  constructor
  · rintro ⟨n, h⟩
    induction n generalizing p with
    | zero => cases h
    | succ n ih =>
      obtain hends | ⟨q, hpq, hrest⟩ := run_cases h
      · exact ⟨p, .refl, hends⟩
      · obtain ⟨t, hqt, hends⟩ := ih hrest
        exact ⟨t, .head hpq hqt, hends⟩
  · rintro ⟨q, hpq, hends⟩
    induction hpq using ReflTransGen.head_induction_on with
    | refl => exact run_endsAs hends
    | head h _ ih => exact run_passes h ih

theorem run_of_passes (h : s.Passes p q) (hp : ∃ n, s.run n p = some r) : ∃ n, s.run n q = some r := by
  obtain ⟨n, hn⟩ := hp
  cases n with
  | zero => cases hn
  | succ n =>
    obtain hends | ⟨t, ht, hrest⟩ := run_cases hn
    · exact absurd hends (not_endsAs_of_passes h)
    · rw [h.unique ht]
      exact ⟨n, hrest⟩

theorem run_of_reached (h : ReflTransGen s.Passes p q) (hp : ∃ n, s.run n p = some r) :
    ∃ n, s.run n q = some r := by
  induction h with
  | refl => exact hp
  | tail _ hqt ih => exact run_of_passes hqt ih

theorem acc_of_run (h : ∃ n, s.run n p = some r) : Acc (fun q p => s.Passes p q) p := by
  obtain ⟨n, hn⟩ := h
  induction n generalizing p with
  | zero => cases hn
  | succ n ih =>
    refine ⟨_, fun q hq => ?_⟩
    obtain hends | ⟨t, ht, hrest⟩ := run_cases hn
    · exact absurd hends (not_endsAs_of_passes hq)
    · rw [hq.unique ht]
      exact ih hrest

theorem looks_of_run (h : ∃ n, s.run n p = some r) (hp : p ≠ s.head) : ∃ r, s.LooksAs p r := by
  obtain ⟨q, hpq, hends⟩ := run_iff.mp h
  obtain rfl | ⟨t, hpt, -⟩ := ReflTransGen.cases_head hpq
  · exact looksAs_of_ends hends hp
  · exact ⟨_, hpt.2.1⟩

theorem run_of_acc (hacc : Acc (fun q p => s.Passes p q) p)
    (hlooks : ∀ q, ReflTransGen s.Passes p q → q ≠ s.head → ∃ r, s.LooksAs q r) :
    ∃ r n, s.run n p = some r := by
  induction hacc with
  | intro p _ ih =>
    obtain ⟨r, hends⟩ | ⟨q, hpq⟩ := endsAs_or_passes (hlooks p .refl)
    · exact ⟨r, run_endsAs hends⟩
    · obtain ⟨r, hr⟩ := ih q hpq (fun t hqt => hlooks t (.head hpq hqt))
      exact ⟨r, run_passes hpq hr⟩

theorem run_ends_iff {nodes : Set A} (hfinite : nodes.Finite) (hnodes : ∀ p q, s.next p = .ok q → q ∈ nodes) :
    (∃ r n, s.run n p = some r) ↔ ∀ q, ReflTransGen s.Passes p q →
      ¬ TransGen s.Passes q q ∧ (q ≠ s.head → ∃ r, s.LooksAs q r) := by
  constructor
  · rintro ⟨r, h⟩ q hpq
    exact ⟨Acyclic.not_transGen_of_acc (acc_of_run h) hpq, looks_of_run (run_of_reached hpq h)⟩
  · intro h
    have hacc := Acyclic.acc_of_reachable hfinite (fun p q hpq => hnodes p q hpq.2.2) (fun q hpq => (h q hpq).1)
    exact run_of_acc hacc (fun q hpq => (h q hpq).2)

def Ring (s : Search A B E) : A → List A → Prop
  | p, [] => p = s.head
  | p, q :: qs => p = q ∧ q ≠ s.head ∧ ∃ t, s.next q = .ok t ∧ Ring s t qs

theorem run_ring {X : Type} {xs : List X} {node : X → A} {look : X → Option B} (hring : s.Ring p (xs.map node))
    (hlook : ∀ x ∈ xs, s.LooksAs (node x) (.ok (look x))) : ∃ n, s.run n p = some (.ok (xs.findSome? look)) := by
  induction xs generalizing p with
  | nil =>
    obtain rfl : p = s.head := hring
    exact ⟨1, run_head 0⟩
  | cons x xs ih =>
    obtain ⟨rfl, hp, t, hnext, hrest⟩ := hring
    obtain ⟨hfirst, hlook⟩ := List.forall_mem_cons.mp hlook
    rw [List.findSome?_cons]
    cases hfound : look x with
    | none =>
      rw [hfound] at hfirst
      exact run_passes ⟨hp, hfirst, hnext⟩ (ih hrest hlook)
    | some b =>
      rw [hfound] at hfirst
      exact run_endsAs (.found hp hfirst)

end Search

section Walk

variable {C : Type} (head : A) (next : A → Except E A) (visit : A → Except E C)

/-- A walk that makes something of each node up to the head, with the error that it stops at. -/
def walk [DecidableEq A] : ℕ → A → Option (List (A × C) × Option E)
  | 0, _ => none
  | fuel + 1, p =>
    if p = head then some ([], none)
    else
      match visit p with
      | .error e => some ([], some e)
      | .ok c =>
        match next p with
        | .error e => some ([(p, c)], some e)
        | .ok q => (walk fuel q).map (fun r => ((p, c) :: r.1, r.2))

def walkSearch : Search A Unit E where
  head := head
  next := next
  look _ p := some ((visit p).map (fun _ => none))
  steady _ _ _ _ _ h := h

def walkEnd (r : List (A × C) × Option E) : Except E (Option Unit) :=
  match r.2 with
  | none => .ok none
  | some e => .error e

variable {head next visit} {p q : A}

variable [DecidableEq A]

theorem walkSearch_run (n : ℕ) (p : A) :
    (walkSearch head next visit).run n p = (walk head next visit n p).map walkEnd := by
  induction n generalizing p with
  | zero => rfl
  | succ n ih =>
    have hlook : (walkSearch head next visit).look n p = some ((visit p).map (fun _ => none)) := rfl
    have hnext : (walkSearch head next visit).next p = next p := rfl
    have hhead : (walkSearch head next visit).head = head := rfl
    rw [Search.run, walk, hhead, hlook, hnext]
    split_ifs
    · rfl
    · cases visit p with
      | error e => rfl
      | ok c =>
        cases next p with
        | error e => rfl
        | ok q =>
          dsimp only [Except.map]
          rw [ih, Option.map_map]
          rfl

theorem walk_ends_iff {nodes : Set A} (hfinite : nodes.Finite) (hnodes : ∀ p q, next p = .ok q → q ∈ nodes) :
    (∃ r n, walk head next visit n p = some r) ↔ ∀ q, ReflTransGen (walkSearch head next visit).Passes p q →
      ¬ TransGen (walkSearch head next visit).Passes q q := by
  have hrun : (∃ r n, walk head next visit n p = some r) ↔
      ∃ r n, (walkSearch head next visit).run n p = some r := by
    simp only [walkSearch_run, Option.map_eq_some_iff]
    constructor
    · rintro ⟨r, n, h⟩
      exact ⟨_, n, r, h, rfl⟩
    · rintro ⟨-, n, r, h, -⟩
      exact ⟨r, n, h⟩
  rw [hrun, Search.run_ends_iff hfinite hnodes]
  constructor
  · exact fun h q hq => (h q hq).1
  · exact fun h q hq => ⟨h q hq, fun _ => ⟨_, 0, rfl⟩⟩

theorem walk_visits {n : ℕ} {r : List (A × C) × Option E} (h : walk head next visit n p = some r) :
    ∀ e ∈ r.1, visit e.1 = .ok e.2 := by
  induction n generalizing p r with
  | zero => cases h
  | succ n ih =>
    rw [walk] at h
    split_ifs at h
    · cases h
      exact fun e he => absurd he List.not_mem_nil
    · cases hvisit : visit p with
      | error e =>
        rw [hvisit] at h
        cases h
        exact fun e he => absurd he List.not_mem_nil
      | ok c =>
        rw [hvisit] at h
        dsimp only at h
        cases hnext : next p with
        | error e =>
          rw [hnext] at h
          cases h
          exact List.forall_mem_singleton.mpr hvisit
        | ok q =>
          rw [hnext] at h
          obtain ⟨rest, hrest, rfl⟩ := Option.map_eq_some_iff.mp h
          exact List.forall_mem_cons.mpr ⟨hvisit, ih hrest⟩

theorem walk_ring {X : Type} {xs : List X} {node : X → A} {line : X → C}
    (hring : (walkSearch head next visit).Ring p (xs.map node)) (hvisit : ∀ x ∈ xs, visit (node x) = .ok (line x)) :
    ∃ n, walk head next visit n p = some (xs.map (fun x => (node x, line x)), none) := by
  induction xs generalizing p with
  | nil =>
    obtain rfl : p = head := hring
    exact ⟨1, by rw [walk, if_pos rfl]; rfl⟩
  | cons x xs ih =>
    obtain ⟨rfl, hp, t, hnext, hrest⟩ := hring
    obtain ⟨hfirst, hvisit⟩ := List.forall_mem_cons.mp hvisit
    obtain ⟨n, hn⟩ := ih hrest hvisit
    have hnode : node x ≠ head := hp
    have ht : next (node x) = .ok t := hnext
    exact ⟨n + 1, by rw [walk, if_neg hnode, hfirst, ht]; simp only [hn, Option.map_some, List.map_cons]⟩

end Walk

end CgxLayer.ListWalk

import Mathlib.Data.List.Basic
import Mathlib.Data.List.Induction

/-! Items that lie on one another, taken away one by one where nothing lies on them any more. -/

namespace CgxLayer.Peeling

variable {α κ : Type}

/-- Items with a key of their own and the key of what they lie on, and the keys held from outside. -/
structure Pile (α κ : Type) where
  key : α → κ
  base : α → κ
  held : κ → Bool

variable (pile : Pile α κ)

section

variable [DecidableEq κ]

def Pile.covered (xs : List α) (k : κ) : Bool := xs.any (fun y => pile.base y = k)

def Pile.visit (xs : List α) (k : κ) : List α :=
  if pile.held k || pile.covered xs k then xs else xs.filter (fun x => pile.key x ≠ k)

def Pile.pass (ks : List κ) (xs : List α) : List α := ks.foldl pile.visit xs

def Pile.rounds (ks : List κ) : ℕ → List α → List α
  | 0, xs => xs
  | n + 1, xs => pile.pass ks (Pile.rounds ks n xs)

end

def Pile.BasesFirst (ks : List κ) (xs : List α) : Prop :=
  ∀ as k bs, ks = as ++ k :: bs → ∀ y ∈ xs, pile.base y = k → pile.key y ∉ as

def Pile.Stays (ks : List κ) (xs : List α) : ℕ → α → Prop
  | 0, _ => True
  | n + 1, x => pile.key x ∉ ks ∨ pile.held (pile.key x) = true ∨
      ∃ y ∈ xs, pile.base y = pile.key x ∧ Pile.Stays ks xs n y

variable {pile} {ks : List κ} {xs : List α}

theorem Pile.BasesFirst.sub {ys : List α} (h : pile.BasesFirst ks xs) (hsub : ∀ y ∈ ys, y ∈ xs) :
    pile.BasesFirst ks ys :=
  fun as k bs hks y hy => h as k bs hks y (hsub y hy)

theorem Pile.Stays.of_succ {n : ℕ} {x : α} (h : pile.Stays ks xs (n + 1) x) : pile.Stays ks xs n x := by
  induction n generalizing x with
  | zero => exact trivial
  | succ n ih =>
    obtain hout | hheld | ⟨y, hy, hbase, hstays⟩ := h
    · exact .inl hout
    · exact .inr (.inl hheld)
    · exact .inr (.inr ⟨y, hy, hbase, ih hstays⟩)

variable [DecidableEq κ]

theorem covered_iff {k : κ} : pile.covered xs k = true ↔ ∃ y ∈ xs, pile.base y = k := by
  simp [Pile.covered]

theorem mem_visit {k : κ} {x : α} : x ∈ pile.visit xs k ↔
    x ∈ xs ∧ (pile.key x = k → pile.held k = true ∨ ∃ y ∈ xs, pile.base y = k) := by
  rw [Pile.visit, ← covered_iff, ← Bool.or_eq_true]
  split_ifs with h
  · exact ⟨fun hx => ⟨hx, fun _ => h⟩, fun hx => hx.1⟩
  · rw [List.mem_filter, decide_eq_true_iff]
    exact ⟨fun hx => ⟨hx.1, fun hk => absurd hk hx.2⟩, fun hx => ⟨hx.1, fun hk => h (hx.2 hk)⟩⟩

theorem pass_concat (as : List κ) (k : κ) (xs : List α) :
    pile.pass (as ++ [k]) xs = pile.visit (pile.pass as xs) k :=
  List.foldl_concat ..

theorem mem_pass (h : pile.BasesFirst ks xs) {x : α} : x ∈ pile.pass ks xs ↔
    x ∈ xs ∧ (pile.key x ∈ ks → pile.held (pile.key x) = true ∨ ∃ y ∈ xs, pile.base y = pile.key x) := by
  suffices hprefix : ∀ as bs, ks = as ++ bs → ∀ x, x ∈ pile.pass as xs ↔
      x ∈ xs ∧ (pile.key x ∈ as → pile.held (pile.key x) = true ∨ ∃ y ∈ xs, pile.base y = pile.key x) from
    hprefix ks [] (List.append_nil ks).symm x
  intro as
  induction as using List.reverseRecOn with
  | nil => exact fun bs _ x => ⟨fun hx => ⟨hx, fun hk => absurd hk List.not_mem_nil⟩, fun hx => hx.1⟩
  | append_singleton as k ih =>
    intro bs hks x
    rw [List.append_assoc, List.singleton_append] at hks
    have hbefore := ih _ hks
    -- what lies on `k` comes after it, so it is all there when `k` is visited
    have hthere : (∃ y ∈ pile.pass as xs, pile.base y = k) ↔ ∃ y ∈ xs, pile.base y = k := by
      constructor
      · rintro ⟨y, hy, hbase⟩
        exact ⟨y, ((hbefore y).mp hy).1, hbase⟩
      · rintro ⟨y, hy, hbase⟩
        exact ⟨y, (hbefore y).mpr ⟨hy, fun hk => absurd hk (h as k bs hks y hy hbase)⟩, hbase⟩
    rw [pass_concat, mem_visit, hthere, hbefore, List.mem_append, List.mem_singleton, and_assoc, or_imp]
    refine and_congr_right (fun _ => and_congr_right (fun _ => forall_congr' (fun hk => ?_)))
    rw [hk]

theorem mem_rounds (h : pile.BasesFirst ks xs) (n : ℕ) (x : α) :
    x ∈ pile.rounds ks n xs ↔ x ∈ xs ∧ pile.Stays ks xs n x := by
  induction n generalizing x with
  | zero => exact ⟨fun hx => ⟨hx, trivial⟩, fun hx => hx.1⟩
  | succ n ih =>
    have hrounds : pile.BasesFirst ks (pile.rounds ks n xs) := h.sub (fun y hy => ((ih y).mp hy).1)
    have hnext : pile.Stays ks xs (n + 1) x ↔ (pile.key x ∈ ks → pile.held (pile.key x) = true ∨
        ∃ y ∈ pile.rounds ks n xs, pile.base y = pile.key x) := by
      rw [Pile.Stays, imp_iff_not_or]
      refine or_congr_right (or_congr_right (exists_congr (fun y => ?_)))
      rw [ih, and_assoc, and_comm (a := pile.base y = pile.key x)]
    rw [Pile.rounds, mem_pass hrounds, ← hnext, ih, and_assoc]
    exact and_congr_right (fun _ => ⟨fun hx => hx.2, fun hx => ⟨hx.of_succ, hx⟩⟩)

end CgxLayer.Peeling

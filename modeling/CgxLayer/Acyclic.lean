import Mathlib.Data.Fintype.Card
import Mathlib.Data.Set.Finite.Basic
import Mathlib.Data.Finset.Lattice.Fold
import Mathlib.Logic.Relation
import Mathlib.Order.WellFounded

namespace CgxLayer.Acyclic

open Relation

variable {α : Type} {r : α → α → Prop}

theorem acc_of_finite {s : Set α} (hs : s.Finite) (hr : ∀ a b, r a b → b ∈ s)
    (hcycle : ∀ a, ¬ TransGen r a a) (a : α) : Acc (fun b a => r a b) a := by
  have hfinite : Finite s := hs
  have hwf : WellFounded (fun x y : s => TransGen r y.1 x.1) := by
    have htrans : IsTrans s (fun x y => TransGen r y.1 x.1) :=
      ⟨fun _ _ _ hxy hyz => hyz.trans hxy⟩
    have hirrefl : Std.Irrefl (fun x y : s => TransGen r y.1 x.1) := ⟨fun x => hcycle x.1⟩
    exact Finite.wellFounded_of_trans_of_irrefl _
  have hmem : ∀ x : s, Acc (fun b a => r a b) x.1 := by
    intro x
    induction x using hwf.induction with
    | _ x ih => exact ⟨x.1, fun y hy => ih ⟨y, hr _ _ hy⟩ (TransGen.single hy)⟩
  exact ⟨a, fun b hb => hmem ⟨b, hr _ _ hb⟩⟩

theorem acc_of_reachable {s : Set α} (hs : s.Finite) (hr : ∀ a b, r a b → b ∈ s) {a : α}
    (hcycle : ∀ b, ReflTransGen r a b → ¬ TransGen r b b) : Acc (fun c b => r b c) a := by
  have hreach : ∀ b, ¬ TransGen (fun x y => ReflTransGen r a x ∧ r x y) b b := by
    intro b hb
    obtain ⟨c, hbc, -⟩ := TransGen.head'_iff.mp hb
    exact hcycle b hbc.1 (TransGen.mono (fun _ _ h => h.2) _ _ hb)
  have hacc := acc_of_finite hs (fun x y h => hr x y h.2) hreach a
  have hlift : ∀ x, Acc (fun c b => ReflTransGen r a b ∧ r b c) x → ReflTransGen r a x →
      Acc (fun c b => r b c) x := by
    intro x hx
    induction hx with
    | intro x _ ih => exact fun hax => ⟨x, fun y hy => ih y ⟨hax, hy⟩ (hax.tail hy)⟩
  exact hlift a hacc .refl

theorem not_transGen_of_acc {a : α} (h : Acc (fun c b => r b c) a) {b : α} (hab : ReflTransGen r a b) :
    ¬ TransGen r b b := by
  induction h generalizing b with
  | intro a _ ih =>
    intro hb
    rcases ReflTransGen.cases_head hab with rfl | ⟨c, hac, hcb⟩
    · obtain ⟨c, hac, hca⟩ := TransGen.head'_iff.mp hb
      exact ih c hac hca hb
    · exact ih c hac hcb hb

theorem exists_level_forall {P : ℕ → α → Prop} {bs : List α}
    (h : ∀ b ∈ bs, ∃ n, ∀ m ≥ n, P m b) : ∃ n, ∀ m ≥ n, ∀ b ∈ bs, P m b := by
  induction bs with
  | nil => exact ⟨0, by simp⟩
  | cons b bs ih =>
    obtain ⟨k, hk⟩ := h b (List.mem_cons_self ..)
    obtain ⟨n, hn⟩ := ih (fun c hc => h c (List.mem_cons_of_mem _ hc))
    refine ⟨max k n, fun m hm c hc => ?_⟩
    rcases List.mem_cons.mp hc with rfl | hc
    · exact hk m (by omega)
    · exact hn m (by omega) c hc

theorem exists_level {succs : α → List α} {P : ℕ → α → Prop}
    (hstep : ∀ n a, (∀ b ∈ succs a, P n b) → P (n + 1) a)
    {a : α} (h : Acc (fun b a => b ∈ succs a) a) : ∃ n, ∀ m ≥ n, P m a := by
  induction h with
  | intro a _ ih =>
    obtain ⟨n, hn⟩ := exists_level_forall ih
    refine ⟨n + 1, fun m hm => ?_⟩
    obtain ⟨k, rfl⟩ : ∃ k, m = k + 1 := ⟨m - 1, by omega⟩
    exact hstep k a (hn k (by omega))

theorem exists_level_of_mem {bs : List α} {P : ℕ → α → Prop} (hr : ∀ a b, r a b → b ∈ bs)
    (hstep : ∀ n a, (∀ b, r a b → P n b) → P (n + 1) a)
    {a : α} (h : Acc (fun b a => r a b) a) : ∃ n, ∀ m ≥ n, P m a := by
  classical
  have hmem : ∀ a b, b ∈ bs.filter (fun b => decide (r a b)) ↔ r a b := by
    intro a b
    rw [List.mem_filter, decide_eq_true_eq, and_iff_right_iff_imp]
    exact hr a b
  have hacc : Acc (fun b a => b ∈ bs.filter (fun b => decide (r a b))) a := by
    simpa only [hmem] using h
  apply exists_level _ hacc
  intro n a ha
  exact hstep n a (fun b hb => ha b ((hmem a b).mpr hb))

theorem not_transGen_of_rank (rank : α → ℕ) (h : ∀ a b, r a b → rank b < rank a) (a : α) :
    ¬ TransGen r a a := by
  have hlt : ∀ b, TransGen r a b → rank b < rank a := by
    intro b hab
    induction hab with
    | single hb => exact h _ _ hb
    | tail _ hbc ih => exact (h _ _ hbc).trans ih
  exact fun haa => lt_irrefl _ (hlt a haa)

end CgxLayer.Acyclic

import Mathlib.Data.List.Induction
import Mathlib.Data.List.Infix

namespace CgxLayer

variable {α β : Type}

def lastOf (f : α → Option β) (ws : List α) : Option β := (ws.filterMap f).getLast?

theorem lastOf_concat (f : α → Option β) (ws : List α) (w : α) :
    lastOf f (ws ++ [w]) = (f w).or (lastOf f ws) := by
  rw [lastOf, List.filterMap_append]
  cases hw : f w with
  | none =>
    rw [List.filterMap_cons_none hw, List.filterMap_nil, List.append_nil]
    rfl
  | some v =>
    rw [List.filterMap_cons_some hw, List.filterMap_nil, List.getLast?_concat]
    rfl

theorem foldl_last {σ : Type} {step : σ → α → σ} {get : σ → β} {f : α → Option β}
    (h : ∀ s w, get (step s w) = (f w).getD (get s)) (s : σ) (ws : List α) :
    get (ws.foldl step s) = (lastOf f ws).getD (get s) := by
  induction ws using List.reverseRecOn with
  | nil => rfl
  | append_singleton ws w ih =>
    rw [List.foldl_append, List.foldl_cons, List.foldl_nil, h, ih, lastOf_concat]
    cases f w <;> rfl

theorem lastOf_append (f : α → Option β) (xs ys : List α) :
    lastOf f (xs ++ ys) = (lastOf f ys).or (lastOf f xs) := by
  rw [lastOf, List.filterMap_append, List.getLast?_append]
  rfl

theorem lastOf_eq_none {f : α → Option β} {ws : List α} : lastOf f ws = none ↔ ∀ w ∈ ws, f w = none := by
  rw [lastOf, List.getLast?_eq_none_iff, List.filterMap_eq_nil_iff]

theorem lastOf_eq_some {f : α → Option β} {ws : List α} {v : β} (h : lastOf f ws = some v) :
    ∃ xs w ys, ws = xs ++ w :: ys ∧ f w = some v ∧ ∀ y ∈ ys, f y = none := by
  induction ws using List.reverseRecOn with
  | nil => cases h
  | append_singleton ws w ih =>
    rw [lastOf_concat] at h
    cases hw : f w with
    | some b =>
      rw [hw, Option.some_or] at h
      exact ⟨ws, w, [], rfl, hw.trans h, fun y hy => absurd hy List.not_mem_nil⟩
    | none =>
      rw [hw, Option.none_or] at h
      obtain ⟨xs, x, ys, rfl, hx, hys⟩ := ih h
      refine ⟨xs, x, ys ++ [w], by rw [List.append_assoc, List.cons_append], hx, fun y hy => ?_⟩
      obtain hy | hy := List.mem_append.mp hy
      · exact hys y hy
      · rw [List.mem_singleton.mp hy, hw]

theorem lastOf_split {f : α → Option β} {xs ys : List α} {w : α} {v : β} (hw : f w = some v)
    (hys : ∀ y ∈ ys, f y = none) : lastOf f (xs ++ w :: ys) = some v := by
  have hcons : xs ++ w :: ys = (xs ++ [w]) ++ ys := List.append_cons xs w ys
  rw [hcons, lastOf_append, lastOf_eq_none.mpr hys, Option.none_or, lastOf_concat, hw, Option.some_or]

theorem lastOf_map {γ : Type} (f : α → Option β) (g : β → γ) (ws : List α) :
    lastOf (fun w => (f w).map g) ws = (lastOf f ws).map g := by
  rw [lastOf, lastOf, ← List.getLast?_map, List.map_filterMap]

theorem lastOf_filterMap {γ : Type} (f : β → Option γ) (g : α → Option β) (ws : List α) :
    lastOf f (ws.filterMap g) = lastOf (fun w => (g w).bind f) ws := by
  rw [lastOf, lastOf, List.filterMap_filterMap]

theorem lastOf_same {f : α → Option β} {ws : List α} {r : Option β} (h : ∀ w ∈ ws, f w = none ∨ f w = r)
    {w : α} (hw : w ∈ ws) (hr : f w = r) : lastOf f ws = r := by
  cases hlast : lastOf f ws with
  | none => rw [← hr, lastOf_eq_none.mp hlast w hw]
  | some v =>
    obtain ⟨xs, x, ys, rfl, hx, -⟩ := lastOf_eq_some hlast
    obtain hnone | hsame := h x (List.mem_append_right xs (List.mem_cons_self ..))
    · rw [hx] at hnone
      cases hnone
    · rw [← hsame, hx]

section LastOccurrence

variable {pat : List α}

theorem prefix_append_cons {c : α} (hc : c ∉ pat) (a b : List α) : pat <+: a ++ c :: b ↔ pat <+: a := by
  refine ⟨fun h => ?_, fun h => h.trans (List.prefix_append a _)⟩
  apply List.prefix_of_prefix_length_le h (List.prefix_append a _)
  by_contra hlt
  obtain ⟨r, hr⟩ := List.prefix_of_prefix_length_le (List.prefix_append a (c :: b)) h (by omega)
  obtain ⟨t, ht⟩ := h
  rw [← hr, List.append_assoc, List.append_cancel_left_eq] at ht
  cases r with
  | nil =>
    rw [List.append_nil] at hr
    exact hlt (hr ▸ le_rfl)
  | cons d r =>
    obtain rfl : d = c := (List.cons.inj ht).1
    exact hc (hr ▸ List.mem_append_right a (List.mem_cons_self ..))

variable [DecidableEq α]

def lastAfter (pat : List α) : List α → Option (List α)
  | [] => if pat = [] then some [] else none
  | c :: s => (lastAfter pat s).or (if pat <+: c :: s then some ((c :: s).drop pat.length) else none)

theorem lastAfter_eq_none {s : List α} : lastAfter pat s = none ↔ ¬ pat <:+: s := by
  induction s with
  | nil =>
    rw [lastAfter, List.infix_nil]
    split_ifs with h
    · exact ⟨fun hsome => (by cases hsome), fun hne => absurd h hne⟩
    · exact ⟨fun _ => h, fun _ => rfl⟩
  | cons c s ih =>
    rw [lastAfter, Option.or_eq_none_iff, ih, List.infix_cons_iff, not_or]
    split_ifs with h
    · exact ⟨fun hnone => (by cases hnone.2), fun hno => absurd h hno.1⟩
    · exact ⟨fun hno => ⟨h, hno.1⟩, fun hno => ⟨hno.2, rfl⟩⟩

theorem lastAfter_append_cons {c : α} (hne : pat ≠ []) (hc : c ∉ pat) (a b : List α) :
    lastAfter pat (a ++ c :: b) = (lastAfter pat b).or ((lastAfter pat a).map (· ++ c :: b)) := by
  induction a with
  | nil =>
    have hno : ¬ pat <+: c :: b := by
      intro h
      exact hne (List.prefix_nil.mp ((prefix_append_cons hc [] b).mp h))
    have hnil : lastAfter pat [] = none := if_neg hne
    rw [List.nil_append, hnil, lastAfter, if_neg hno]
    rfl
  | cons d a ih =>
    have hstart : pat <+: d :: (a ++ c :: b) ↔ pat <+: d :: a := prefix_append_cons hc (d :: a) b
    rw [List.cons_append, lastAfter, ih, lastAfter, Option.or_assoc, Option.map_or]
    congr 2
    by_cases h : pat <+: d :: a
    · have hdrop : (d :: (a ++ c :: b)).drop pat.length = (d :: a).drop pat.length ++ c :: b :=
        @List.drop_append_of_le_length _ (d :: a) (c :: b) _ h.length_le
      rw [if_pos (hstart.mpr h), if_pos h, Option.map_some, hdrop]
    · rw [if_neg (fun h' => h (hstart.mp h')), if_neg h]
      rfl

theorem lastAfter_skip {c : α} {m : List α} (hm : c ∉ m) (r : List α) :
    lastAfter (c :: pat) (m ++ r) = lastAfter (c :: pat) r := by
  induction m with
  | nil => rfl
  | cons d m ih =>
    have hno : ¬ c :: pat <+: d :: (m ++ r) := by
      intro h
      exact hm (List.mem_cons.mpr (.inl (List.cons_prefix_cons.mp h).1))
    rw [List.cons_append, lastAfter, ih (fun h => hm (List.mem_cons_of_mem _ h)), if_neg hno, Option.or_none]

end LastOccurrence

end CgxLayer

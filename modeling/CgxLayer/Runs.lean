import Mathlib.Data.List.Basic

namespace CgxLayer.Runs

variable {S O : Type}

def states (step : S → O → S) (s : S) : List O → List S
  | [] => [s]
  | o :: os => s :: states step (step s o) os

def AllSteps (step : S → O → S) (ok : S → O → Prop) (s : S) : List O → Prop
  | [] => True
  | o :: os => ok s o ∧ AllSteps step ok (step s o) os

variable {step : S → O → S}

theorem start_mem_states (s : S) (os : List O) : s ∈ states step s os := by
  cases os <;> simp [states]

theorem foldl_mem_states (s : S) (os : List O) : os.foldl step s ∈ states step s os := by
  induction os generalizing s with
  | nil => simp [states]
  | cons o os ih => exact List.mem_cons_of_mem _ (ih (step s o))

theorem forall_states {ok : S → O → Prop} {Inv : S → Prop}
    (hstep : ∀ s o, Inv s → ok s o → Inv (step s o)) {s : S} (hs : Inv s) {os : List O}
    (hos : AllSteps step ok s os) : ∀ t ∈ states step s os, Inv t := by
  induction os generalizing s with
  | nil => simpa [states] using hs
  | cons o os ih =>
    intro t ht
    rcases List.mem_cons.mp ht with rfl | ht
    · exact hs
    · exact ih (hstep s o hs hos.1) hos.2 t ht

theorem forall_states_iff {ok : S → O → Prop} {Inv P : S → Prop} (hP : ∀ s, Inv s → P s)
    (hstep : ∀ s o, Inv s → ok s o → Inv (step s o))
    (hbreak : ∀ s o, Inv s → ¬ ok s o → ¬ P (step s o)) {s : S} (hs : Inv s) (os : List O) :
    (∀ t ∈ states step s os, P t) ↔ AllSteps step ok s os := by
  constructor
  · intro h
    induction os generalizing s with
    | nil => trivial
    | cons o os ih =>
      have hnext : P (step s o) := h _ (List.mem_cons_of_mem _ (start_mem_states _ os))
      have hok : ok s o := by
        by_contra hno
        exact hbreak s o hs hno hnext
      exact ⟨hok, ih (hstep s o hs hok) (fun t ht => h t (List.mem_cons_of_mem _ ht))⟩
  · intro hos t ht
    exact hP t (forall_states hstep hs hos t ht)

theorem foldlM_inv {f : S → O → Option S} {Inv : S → Prop} {os : List O}
    (hf : ∀ s, ∀ o ∈ os, Inv s → ∀ t, f s o = some t → Inv t) {s : S} (hs : Inv s) {t : S}
    (ht : os.foldlM f s = some t) : Inv t := by
  induction os generalizing s with
  | nil =>
    cases ht
    exact hs
  | cons o os ih =>
    rw [List.foldlM_cons] at ht
    obtain ⟨u, hu, hrest⟩ := Option.bind_eq_some_iff.mp ht
    exact ih (fun s o ho => hf s o (List.mem_cons_of_mem _ ho)) (hf s o (List.mem_cons_self ..) hs u hu) hrest

end CgxLayer.Runs

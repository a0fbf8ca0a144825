import CgxLayer.Sysvinit.Rc

namespace CgxLayer.Sysvinit

open Text

def sessions : List Text :=
  ["gdm".toList, "xdm".toList, "kdm".toList, "reboot".toList, "halt".toList]

-- `S??` and the name of a display manager, or the end of the system
def RcEntry.isSession (e : RcEntry) : Bool :=
  match e.name with
  | 'S' :: _ :: _ :: s => s ∈ sessions
  | _ => false

/-- `num_steps`: a pattern that matches nothing is counted itself. -/
def Etc.numSteps (etc : Etc) (l : Level) : ℕ :=
  match (etc.entries l).filter RcEntry.isScript with
  | [] => 1
  | es => (es.takeWhile (fun e => !e.isSession)).length

def progressSize : ℤ := (100 - 0) / 3

structure Bar where
  first : ℤ
  size : ℤ

def Level.bar (l : Level) : Bar :=
  if l.halting then ⟨-100, 100⟩
  else if l = .single then ⟨0, progressSize * 2⟩
  else ⟨progressSize * 2, progressSize⟩

def startupProgress (b : Bar) (numSteps : ℕ) (step : ℤ) : ℤ :=
  if numSteps ≠ 0 then step * b.size / numSteps + b.first else b.size

/-- What is written to the splash screen's pipe while `rc` runs its scripts. -/
def Etc.progress (etc : Etc) (l : Level) (previous : Option Level) : List ℤ :=
  (List.range (etc.rc l previous).length).map (fun i : ℕ => startupProgress l.bar (etc.numSteps l) (i + 1))

def Etc.NoSession (etc : Etc) (l : Level) : Prop := ∀ e ∈ etc.entries l, e.isSession = false

variable {etc : Etc} {l : Level} {previous : Option Level}

theorem filters_disjoint {p q r : RcEntry → Bool} (hp : ∀ e, p e = true → r e = true ∧ q e = false)
    (hq : ∀ e, q e = true → r e = true) (es : List RcEntry) :
    (es.filter p).length + (es.filter q).length ≤ (es.filter r).length := by
  induction es with
  | nil => simp
  | cons e es ih =>
    simp only [List.filter_cons]
    cases hpe : p e with
    | true =>
      obtain ⟨hre, hqe⟩ := hp e hpe
      simp only [hre, hqe, if_true, Bool.false_eq_true, if_false, List.length_cons]
      omega
    | false =>
      cases hqe : q e with
      | true =>
        simp only [hq e hqe, if_true, Bool.false_eq_true, if_false, List.length_cons]
        omega
      | false =>
        simp only [Bool.false_eq_true, if_false]
        split_ifs
        · rw [List.length_cons]
          omega
        · exact ih

theorem isStop_kind {e : RcEntry} (h : e.isStop = true) : e.isScript = true ∧ e.isStart = false := by
  obtain ⟨s, hs⟩ := isStop_iff.mp h
  obtain ⟨a, b, hname, -, -⟩ := suffixAfter_eq_some.mp hs
  simp [RcEntry.isScript, RcEntry.isStart, hname]

theorem rc_length_le (etc : Etc) (l : Level) (previous : Option Level) :
    (etc.rc l previous).length ≤ ((etc.entries l).filter RcEntry.isScript).length := by
  have hkills : (etc.kills l previous).length ≤
      ((etc.entries l).filter (fun e => e.isStop && etc.isFile e)).length := by
    rw [Etc.kills]
    split_ifs
    · exact Nat.zero_le _
    · rw [List.length_map]
  have hboth := filters_disjoint (p := fun e => e.isStop && etc.isFile e)
    (q := fun e => e.isStart && etc.isFile e && !etc.skipped l previous e) (r := RcEntry.isScript)
    (fun e he => by
      obtain ⟨hstop, -⟩ := Bool.and_eq_true_iff.mp he
      obtain ⟨hscript, hstart⟩ := isStop_kind hstop
      exact ⟨hscript, by rw [hstart]; rfl⟩)
    (fun e he => by
      have hstart : e.isStart = true := by
        simp only [Bool.and_eq_true] at he
        exact he.1.1
      exact decide_eq_true (.inl (of_decide_eq_true hstart)))
    (etc.entries l)
  rw [Etc.rc, List.length_append, Etc.starts, List.length_map]
  omega

theorem rc_length_le_numSteps (h : etc.NoSession l) : (etc.rc l previous).length ≤ etc.numSteps l ∧
    0 < etc.numSteps l := by
  have hle := rc_length_le etc l previous
  have hfree : ∀ e ∈ (etc.entries l).filter RcEntry.isScript, (!e.isSession) = true := by
    intro e he
    rw [h e (List.mem_of_mem_filter he)]
    rfl
  rw [Etc.numSteps]
  generalize (etc.entries l).filter RcEntry.isScript = es at hle hfree
  cases es with
  | nil =>
    rw [List.length_nil] at hle
    dsimp only
    omega
  | cons e es =>
    dsimp only
    rw [List.takeWhile_eq_self_iff.mpr hfree]
    exact ⟨hle, Nat.succ_pos _⟩

theorem progress_mono {b : Bar} (hb : 0 ≤ b.size) {n : ℕ} {i j : ℤ} (hij : i ≤ j) :
    startupProgress b n i ≤ startupProgress b n j := by
  rw [startupProgress, startupProgress]
  split_ifs
  · have hmul : i * b.size ≤ j * b.size := Int.mul_le_mul_of_nonneg_right hij hb
    have hdiv := Int.ediv_le_ediv (c := (n : ℤ)) (by omega) hmul
    omega
  · exact le_rfl

theorem progress_bounds {b : Bar} (hb : 0 ≤ b.size) {n : ℕ} (hn : 0 < n) {i : ℤ} (hi : 0 ≤ i) (hin : i ≤ n) :
    b.first ≤ startupProgress b n i ∧ startupProgress b n i ≤ b.first + b.size := by
  have hlow := progress_mono (n := n) hb hi
  have hhigh := progress_mono (n := n) hb hin
  have hzero : startupProgress b n 0 = b.first := by simp [startupProgress, hn.ne']
  have hfull : startupProgress b n n = b.first + b.size := by
    rw [startupProgress, if_pos hn.ne', Int.mul_ediv_cancel_left _ (by omega)]
    omega
  omega

theorem size_nonneg (l : Level) : 0 ≤ l.bar.size := by
  rw [Level.bar]
  split_ifs <;> decide

theorem mem_progress (h : etc.NoSession l) {p : ℤ} (hp : p ∈ etc.progress l previous) :
    l.bar.first ≤ p ∧ p ≤ l.bar.first + l.bar.size := by
  obtain ⟨hle, hpos⟩ : (etc.rc l previous).length ≤ etc.numSteps l ∧ 0 < etc.numSteps l :=
    rc_length_le_numSteps h
  obtain ⟨i, hi, rfl⟩ := List.mem_map.mp hp
  rw [List.mem_range] at hi
  exact progress_bounds (size_nonneg l) hpos (by omega) (by omega)

theorem progress_pairwise (etc : Etc) (l : Level) (previous : Option Level) :
    (etc.progress l previous).Pairwise (· ≤ ·) := by
  rw [Etc.progress, List.pairwise_map]
  apply List.pairwise_lt_range.imp
  intro i j hij
  exact progress_mono (size_nonneg l) (by omega)

theorem boot_progress (etc : Etc) (l : Level) (previous : Option Level) (hsingle : etc.NoSession .single)
    (hl : etc.NoSession l) (hhalt : l.halting = false) (hne : l ≠ .single) :
    (etc.progress .single none ++ etc.progress l previous).Pairwise (· ≤ ·) ∧
      ∀ p ∈ etc.progress .single none ++ etc.progress l previous, 0 ≤ p ∧ p ≤ 99 := by
  have hbar : l.bar = ⟨66, 33⟩ := by
    rw [Level.bar, hhalt, if_neg Bool.false_ne_true, if_neg hne]
    rfl
  have hfirst : ∀ p ∈ etc.progress .single none, 0 ≤ p ∧ p ≤ 66 := fun p hp => mem_progress hsingle hp
  have hsecond : ∀ p ∈ etc.progress l previous, 66 ≤ p ∧ p ≤ 99 := by
    intro p hp
    have hbounds := mem_progress hl hp
    rw [hbar] at hbounds
    exact hbounds
  constructor
  · apply List.pairwise_append.mpr
    refine ⟨progress_pairwise _ _ _, progress_pairwise _ _ _, fun p hp q hq => ?_⟩
    have h₁ := hfirst p hp
    have h₂ := hsecond q hq
    omega
  · intro p hp
    obtain hp | hp := List.mem_append.mp hp
    · have h₁ := hfirst p hp
      omega
    · have h₂ := hsecond p hp
      omega

theorem twoLevels_progress :
    (twoLevels.progress .single none ++ twoLevels.progress (.digit 2) none).Pairwise (· ≤ ·) ∧
      ∀ p ∈ twoLevels.progress .single none ++ twoLevels.progress (.digit 2) none, 0 ≤ p ∧ p ≤ 99 :=
  boot_progress twoLevels (.digit 2) none (by unfold Etc.NoSession; decide) (by unfold Etc.NoSession; decide) rfl
    (by decide)

end CgxLayer.Sysvinit

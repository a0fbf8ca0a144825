import Mathlib.Algebra.Order.Floor.Ring
import Mathlib.Data.Int.Log
import Mathlib.Data.Rat.Floor
import Mathlib.Tactic.Linarith
import Mathlib.Tactic.Positivity

namespace CgxLayer.Rounding

-- the nearest integer, and the even one where two are
def roundEven (q : ℚ) : ℤ :=
  if 2 * (q - ⌊q⌋) < 1 ∨ 2 * (q - ⌊q⌋) = 1 ∧ ⌊q⌋ % 2 = 0 then ⌊q⌋ else ⌊q⌋ + 1

def unit (p : ℕ) (q : ℚ) : ℚ := 2 ^ (Int.log 2 q - p)

/-- A number that is not below zero, rounded to its first bit and `p` more. -/
def roundBits (p : ℕ) (q : ℚ) : ℚ := roundEven (q / unit p q) * unit p q

theorem roundEven_intCast (n : ℤ) : roundEven n = n := by
  rw [roundEven, Int.floor_intCast, sub_self, mul_zero]
  exact if_pos (.inl one_pos)

theorem floor_le_roundEven (q : ℚ) : ⌊q⌋ ≤ roundEven q := by
  rw [roundEven]
  split_ifs <;> omega

theorem roundEven_le (q : ℚ) : roundEven q ≤ ⌊q⌋ + 1 := by
  rw [roundEven]
  split_ifs <;> omega

theorem roundEven_mono {x y : ℚ} (h : x ≤ y) : roundEven x ≤ roundEven y := by
  obtain hlt | heq := (Int.floor_mono h).lt_or_eq
  · calc
      roundEven x ≤ ⌊x⌋ + 1 := roundEven_le x
      _ ≤ ⌊y⌋ := hlt
      _ ≤ roundEven y := floor_le_roundEven y
  · rw [roundEven, roundEven, heq]
    split_ifs with hx hy hy
    · exact le_rfl
    · omega
    · exfalso
      apply hx
      obtain hy | ⟨hy, heven⟩ := hy
      · exact .inl (by linarith)
      · obtain hlt | heq := (by linarith : 2 * (x - ⌊y⌋) ≤ 1).lt_or_eq
        · exact .inl hlt
        · exact .inr ⟨heq, heven⟩
    · exact le_rfl

variable {p : ℕ} {q x y : ℚ}

theorem unit_pos : 0 < unit p q := zpow_pos two_pos _

theorem two_pow_mul_unit (n : ℕ) : 2 ^ n * unit p q = 2 ^ (Int.log 2 q - p + n) := by
  rw [unit, ← zpow_natCast, ← zpow_add₀ two_ne_zero, add_comm]

theorem le_div_unit (hq : 0 < q) : 2 ^ p ≤ q / unit p q := by
  rw [le_div_iff₀ unit_pos, two_pow_mul_unit, sub_add_cancel]
  exact Int.zpow_log_le_self one_lt_two hq

theorem div_unit_lt : q / unit p q < 2 ^ (p + 1) := by
  have hexp : Int.log 2 q - p + (p + 1 : ℕ) = Int.log 2 q + 1 := by
    push_cast
    ring
  rw [div_lt_iff₀ unit_pos, two_pow_mul_unit, hexp]
  exact Int.lt_zpow_succ_log_self one_lt_two q

theorem two_pow_le_roundEven (hq : 0 < q) : 2 ^ p ≤ roundEven (q / unit p q) := by
  have hle := roundEven_mono (le_div_unit (p := p) hq)
  have hpow : ((2 ^ p : ℤ) : ℚ) = 2 ^ p := by push_cast; rfl
  rwa [← hpow, roundEven_intCast] at hle

theorem roundEven_le_two_pow : roundEven (q / unit p q) ≤ 2 ^ (p + 1) := by
  have hle := roundEven_mono (div_unit_lt (p := p) (q := q)).le
  have hpow : ((2 ^ (p + 1) : ℤ) : ℚ) = 2 ^ (p + 1) := by push_cast; rfl
  rwa [← hpow, roundEven_intCast] at hle

theorem roundBits_zero : roundBits p 0 = 0 := by
  have hzero : roundEven 0 = 0 := roundEven_intCast 0
  rw [roundBits, zero_div, hzero, Int.cast_zero, zero_mul]

theorem zpow_le_roundBits (hq : 0 < q) : 2 ^ Int.log 2 q ≤ roundBits p q := by
  have hle : (2 ^ p : ℚ) ≤ roundEven (q / unit p q) := by exact_mod_cast two_pow_le_roundEven (p := p) hq
  calc
    (2 : ℚ) ^ Int.log 2 q = 2 ^ p * unit p q := by rw [two_pow_mul_unit, sub_add_cancel]
    _ ≤ roundBits p q := mul_le_mul_of_nonneg_right hle unit_pos.le

theorem roundBits_le_zpow : roundBits p q ≤ 2 ^ (Int.log 2 q + 1) := by
  have hle : (roundEven (q / unit p q) : ℚ) ≤ 2 ^ (p + 1) := by exact_mod_cast roundEven_le_two_pow (p := p) (q := q)
  have hexp : Int.log 2 q - p + (p + 1 : ℕ) = Int.log 2 q + 1 := by
    push_cast
    ring
  calc
    roundBits p q ≤ 2 ^ (p + 1) * unit p q := mul_le_mul_of_nonneg_right hle unit_pos.le
    _ = 2 ^ (Int.log 2 q + 1) := by rw [two_pow_mul_unit, hexp]

theorem roundBits_nonneg (hq : 0 ≤ q) : 0 ≤ roundBits p q := by
  obtain rfl | hpos := hq.eq_or_lt
  · rw [roundBits_zero]
  · exact (zpow_pos two_pos _).le.trans (zpow_le_roundBits hpos)

theorem roundBits_mono (hx : 0 ≤ x) (h : x ≤ y) : roundBits p x ≤ roundBits p y := by
  obtain rfl | hpos := hx.eq_or_lt
  · rw [roundBits_zero]
    exact roundBits_nonneg h
  · obtain heq | hlt := (Int.log_mono_right hpos h : Int.log 2 x ≤ Int.log 2 y).eq_or_lt
    · have hunit : unit p x = unit p y := by rw [unit, unit, heq]
      have hle : x / unit p y ≤ y / unit p y := div_le_div_of_nonneg_right h unit_pos.le
      have hround : (roundEven (x / unit p y) : ℚ) ≤ roundEven (y / unit p y) := by exact_mod_cast roundEven_mono hle
      rw [roundBits, roundBits, hunit]
      exact mul_le_mul_of_nonneg_right hround unit_pos.le
    · calc
        roundBits p x ≤ 2 ^ (Int.log 2 x + 1) := roundBits_le_zpow
        _ ≤ 2 ^ Int.log 2 y := zpow_le_zpow_right₀ one_le_two hlt
        _ ≤ roundBits p y := zpow_le_roundBits (hpos.trans_le h)

theorem roundBits_of_int {n : ℤ} (h : q / unit p q = n) : roundBits p q = q := by
  rw [roundBits, h, roundEven_intCast, ← h, div_mul_cancel₀ _ unit_pos.ne']

theorem roundBits_grid {m : ℤ} (hm : 0 ≤ m) (hle : m ≤ 2 ^ (p + 1)) (k : ℤ) :
    roundBits p (m * 2 ^ k) = m * 2 ^ k := by
  obtain rfl | hpos := hm.eq_or_lt
  · rw [Int.cast_zero, zero_mul, roundBits_zero]
  have hq : (0 : ℚ) < m * 2 ^ k := mul_pos (by exact_mod_cast hpos) (zpow_pos two_pos k)
  generalize hlog : Int.log 2 ((m : ℚ) * 2 ^ k) = e
  have hunit : unit p ((m : ℚ) * 2 ^ k) = 2 ^ (e - p) := by rw [unit, hlog]
  by_cases hk : e - p ≤ k
  · obtain ⟨n, hn⟩ := Int.eq_ofNat_of_zero_le (by omega : 0 ≤ k - (e - p))
    apply @roundBits_of_int p _ (m * 2 ^ n)
    rw [hunit, mul_div_assoc, ← zpow_sub₀ two_ne_zero, hn]
    push_cast
    rw [zpow_natCast]
  · have hbound : (m * 2 ^ k : ℚ) ≤ 2 ^ (k + (p + 1 : ℕ)) := by
      have hcast : (m : ℚ) ≤ 2 ^ (p + 1) := by exact_mod_cast hle
      rw [zpow_add₀ two_ne_zero, zpow_natCast, mul_comm]
      exact mul_le_mul_of_nonneg_left hcast (zpow_pos two_pos k).le
    have hlow : (2 : ℚ) ^ e ≤ m * 2 ^ k := hlog ▸ Int.zpow_log_le_self one_lt_two hq
    have htop : e ≤ k + (p + 1 : ℕ) := (zpow_le_zpow_iff_right₀ one_lt_two).mp (hlow.trans hbound)
    have he : e = k + (p + 1 : ℕ) := by
      push_cast at htop ⊢
      omega
    have hpow : (m * 2 ^ k : ℚ) = 2 ^ e := le_antisymm (he ▸ hbound) hlow
    apply @roundBits_of_int p _ (2 ^ p)
    rw [hunit, hpow, ← zpow_sub₀ two_ne_zero, sub_sub_cancel, zpow_natCast]
    push_cast
    rfl

theorem roundBits_intCast {n : ℤ} (hn : 0 ≤ n) (hle : n ≤ 2 ^ (p + 1)) : roundBits p n = n := by
  have hgrid := roundBits_grid hn hle 0
  rwa [zpow_zero, mul_one] at hgrid

theorem roundBits_floor (hq : 0 ≤ q) : roundBits p ⌊roundBits p q⌋ = ⌊roundBits p q⌋ := by
  obtain rfl | hpos := hq.eq_or_lt
  · rw [roundBits_zero, Int.floor_zero, Int.cast_zero, roundBits_zero]
  generalize hn : roundEven (q / unit p q) = n
  have hlow : 0 ≤ n := hn ▸ (by positivity : (0 : ℤ) ≤ 2 ^ p).trans (two_pow_le_roundEven hpos)
  have hhigh : n ≤ 2 ^ (p + 1) := hn ▸ roundEven_le_two_pow
  have hround : roundBits p q = n * 2 ^ (Int.log 2 q - p) := by rw [roundBits, hn, unit]
  by_cases hk : 0 ≤ Int.log 2 q - p
  · obtain ⟨k, hk⟩ := Int.eq_ofNat_of_zero_le hk
    have hint : roundBits p q = (n * 2 ^ k : ℤ) := by
      rw [hround, hk, zpow_natCast]
      push_cast
      rfl
    rw [hint, Int.floor_intCast, ← hint, hround]
    exact roundBits_grid hlow hhigh _
  · have hone : (2 : ℚ) ^ (Int.log 2 q - p) ≤ 1 := zpow_le_one_of_nonpos₀ one_le_two (by omega)
    have hle : roundBits p q ≤ n := by
      rw [hround]
      exact mul_le_of_le_one_right (by exact_mod_cast hlow) hone
    have hfloor : ⌊roundBits p q⌋ ≤ n := by
      rw [← Int.floor_intCast (R := ℚ) n]
      exact Int.floor_mono hle
    exact roundBits_intCast (Int.floor_nonneg.mpr (roundBits_nonneg hq)) (hfloor.trans hhigh)

end CgxLayer.Rounding

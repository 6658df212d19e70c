import InfixArithmetic.Decimal.Positional
import InfixArithmetic.Proofs.DecimalReading

/-!
The shortest decimal of a double.
-/

namespace InfixArithmetic

namespace Decimal

open Rounding (Canonical InRange gapBelow)

def value (d : Decimal) : ℚ :=
  d.digits * 10 ^ d.exponent

theorem quarter_eq (e : Int) : (quarter e : ℚ) = 2 ^ e / 4 * 10 ^ scale e := by
  have hfour : (2 : ℚ) ^ e / 4 = 2 ^ (e - 2) := by
    rw [zpow_sub₀ two_ne_zero]
    norm_num
  rw [hfour, quarter, scale]
  split
  · rename_i h
    obtain ⟨k, hk⟩ := Int.le.dest h
    have hscale : (2 - e).toNat = 0 := by omega
    have hk' : e - 2 = k := by omega
    simp only [Nat.pow_eq, hscale, hk']
    push_cast
    simp
  · rename_i h
    obtain ⟨k, hk⟩ := Int.le.dest (not_le.mp h).le
    have hscale : (2 - e).toNat = k := by omega
    have hk' : e - 2 = -k := by omega
    simp only [Nat.pow_eq, hscale, hk']
    rw [zpow_neg, zpow_natCast, ← inv_pow, ← mul_pow]
    push_cast
    norm_num

/-- What rounds to a double, in quarters of its last place. -/
theorem inRange_of_contains {m n : Nat} {e : Int} (hm : 0 < m) {x : ℚ}
    (h : (rounding m e).contains n = true) (hn : (n : ℚ) = 4 * x * quarter e) :
    InRange m e x := by
  have hq : (0 : ℚ) < quarter e := by exact_mod_cast quarter_pos e
  have hlow : ((rounding m e).low : ℚ) = 4 * (m - gapBelow m e) * quarter e := by
    simp only [rounding, gapBelow, Nat.pow_eq]
    split <;> rw [Nat.cast_mul, Nat.cast_sub (by omega)] <;> push_cast <;> ring
  have hhigh : ((rounding m e).high : ℚ) = 4 * (m + 1 / 2) * quarter e := by
    simp only [rounding]
    push_cast
    ring
  have hbounds : (rounding m e).low ≤ n ∧ n ≤ (rounding m e).high ∧
      (m % 2 = 1 → (rounding m e).low < n ∧ n < (rounding m e).high) := by
    simp only [Span.contains] at h
    split at h
    · rename_i hclosed
      simp only [rounding, decide_eq_true_eq] at hclosed
      simp only [Bool.and_eq_true, decide_eq_true_eq] at h
      omega
    · simp only [Bool.and_eq_true, decide_eq_true_eq] at h
      omega
  obtain ⟨hl, hh, hodd⟩ := hbounds
  constructor
  · have : ((rounding m e).low : ℚ) ≤ n := by exact_mod_cast hl
    rw [hlow, hn] at this
    linarith [le_of_mul_le_mul_right this hq]
  · have : (n : ℚ) ≤ (rounding m e).high := by exact_mod_cast hh
    rw [hhigh, hn] at this
    linarith [le_of_mul_le_mul_right this hq]
  · intro hm
    obtain ⟨hl, hh⟩ := hodd hm
    have hl : ((rounding m e).low : ℚ) < n := by exact_mod_cast hl
    have hh : (n : ℚ) < (rounding m e).high := by exact_mod_cast hh
    rw [hlow, hn] at hl
    rw [hhigh, hn] at hh
    constructor
    · linarith [lt_of_mul_lt_mul_right hl hq.le]
    · linarith [lt_of_mul_lt_mul_right hh hq.le]

theorem shortest_inRange {m : Nat} {e : Int} (hm : Canonical m e) :
    InRange m e ((shortest m e).value / 2 ^ e) := by
  have hcontains := contains_coarsest (contains_rounding e hm.pos)
    (Nat.toDigits 10 (rounding m e).high).length
  refine inRange_of_contains hm.pos hcontains ?_
  rw [quarter_eq, value, shortest]
  dsimp only
  rw [zpow_sub₀ (by norm_num), zpow_natCast, zpow_natCast, Nat.pow_eq]
  push_cast
  field_simp

theorem shortest_digits_pos {m : Nat} {e : Int} (hm : Canonical m e) :
    0 < (shortest m e).digits := by
  by_contra h
  have hlow := (shortest_inRange hm).low
  have hgap := Rounding.gapBelow_le m e
  have hpos : (1 : ℚ) ≤ m := by exact_mod_cast hm.pos
  rw [value, Nat.eq_zero_of_not_pos h] at hlow
  simp only [Nat.cast_zero, zero_mul, zero_div] at hlow
  linarith

theorem neg_scale_le_exponent (m : Nat) (e : Int) : -(scale e : Int) ≤ (shortest m e).exponent := by
  rw [shortest]
  dsimp only
  omega

end Decimal

end InfixArithmetic

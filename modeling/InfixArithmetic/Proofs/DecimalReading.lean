import InfixArithmetic.Proofs.Doubles

/-!
Reading a decimal.  A significand and a power of ten within its reach read as the double whose
rounding range their value lies in (`ofScientific_eq`), both where the two are exact and one
operation rounds them and where the decimal is rounded as a whole.
-/

namespace InfixArithmetic

namespace Rounding

open Float.Model (Format UnpackedFloat)
open Float.Model.UnpackedFloat

theorem log2_le {n : Nat} (hpos : 0 < n) (hn : n < 2 ^ 53) : n.log2 ≤ 52 :=
  Nat.le_of_lt_succ ((Nat.log2_lt hpos.ne').mpr hn)

theorem le_scaled {n : Nat} (hpos : 0 < n) (hn : n < 2 ^ 53) :
    2 ^ 52 ≤ n * 2 ^ (52 - n.log2) := by
  have hlog := log2_le hpos hn
  calc 2 ^ 52 = 2 ^ n.log2 * 2 ^ (52 - n.log2) := by rw [← pow_add]; congr 1; omega
    _ ≤ n * 2 ^ (52 - n.log2) := Nat.mul_le_mul_right _ (Nat.log2_self_le hpos.ne')

/-- A whole number below `2 ^ 53`, and its multiples by small powers of two, are doubles. -/
theorem canonical_scaled {n : Nat} (hpos : 0 < n) (hn : n < 2 ^ 53) {k : Nat} (hk : k ≤ 971) :
    Canonical (n * 2 ^ (52 - n.log2)) (n.log2 - 52 + k) := by
  have hlog := log2_le hpos hn
  have hlow := le_scaled hpos hn
  have hhigh : n * 2 ^ (52 - n.log2) < 2 ^ 53 := by
    calc n * 2 ^ (52 - n.log2) < 2 ^ (n.log2 + 1) * 2 ^ (52 - n.log2) :=
          Nat.mul_lt_mul_of_pos_right Nat.lt_log2_self (by positivity)
      _ = 2 ^ 53 := by rw [← pow_add]; congr 1; omega
  exact ⟨by omega, hhigh, by omega, by omega, .inl hlow⟩

theorem scaled_value {n : Nat} (hpos : 0 < n) (hn : n < 2 ^ 53) (k : Nat) :
    ((n * 2 ^ (52 - n.log2) : ℕ) : ℚ) * 2 ^ ((n.log2 : Int) - 52 + k) = n * 2 ^ k := by
  have hlog := log2_le hpos hn
  push_cast
  rw [mul_assoc, ← zpow_natCast (2 : ℚ) (52 - n.log2), ← zpow_add₀ two_ne_zero, ← zpow_natCast]
  congr 2
  omega

theorem five_pow_lt {k : Nat} (hk : k ≤ 22) : 5 ^ k < 2 ^ 53 :=
  (Nat.pow_le_pow_right (by decide) hk).trans_lt (by norm_num)

theorem powerOfTen_toBits : ∀ k : Fin Float.exactlyRepresentablePowersOfTen.size,
    Float.exactlyRepresentablePowersOfTen[k].toBits =
      .ofBitVec (pack .binary64 (.finite .positive (5 ^ k.val * 2 ^ (52 - (5 ^ k.val).log2))
        ((5 ^ k.val).log2 - 52 + k.val) (by positivity))) := by
  decide +kernel

theorem powerOfTen_eq {k : Nat} (hk : k ≤ 22)
    (h : k < Float.exactlyRepresentablePowersOfTen.size) :
    Float.exactlyRepresentablePowersOfTen[k] =
      double .positive
        (canonical_scaled (n := 5 ^ k) (by positivity) (five_pow_lt hk) (k := k) (by omega)) :=
  Float.toBits_inj.mp (powerOfTen_toBits ⟨k, h⟩)

theorem inRange_self (m : Nat) (e : Int) : InRange m e m := by
  have := gapBelow_pos m e
  exact ⟨by linarith, by linarith, fun _ => ⟨by linarith, by linarith⟩⟩

theorem round_canonical {m : Nat} {e : Int} (s : Sign) (hm : Canonical m e) :
    roundWithAccuracy .binary64 s m e .exact = .finite s m e hm.pos := by
  have hx : (m : ℚ) * 2 ^ e / 2 ^ e = m := mul_div_cancel_right₀ _ (by positivity)
  refine roundWithAccuracy_eq (v := m * 2 ^ e) s hm (.inl hm.pos) ?_ hm.targetExponent.ge ?_
  · rw [hx]
    rfl
  · rw [hx]
    exact inRange_self m e

theorem toFloat_eq {n : Nat} (hpos : 0 < n) (hn : n < 2 ^ 53) :
    n.toUInt64.toFloat = double .positive (canonical_scaled hpos hn (k := 0) (by omega)) := by
  have hword : n.toUInt64.toNat = n := Nat.mod_eq_of_lt (by omega)
  have hlog := log2_le hpos hn
  have hcompare : compare (n : Int) 0 = .gt := Int.compare_eq_gt.mpr (by omega)
  have htarget : Format.binary64.targetExponent (Float.Model.totalExponent n 0) =
      n.log2 - 52 + (0 : Nat) := by
    rw [targetExponent_eq, Float.Model.totalExponent]
    omega
  have hdecrease : decreaseExponent n 0 (n.log2 - 52 + (0 : Nat)) =
      (n * 2 ^ (52 - n.log2), (n.log2 - 52 + (0 : Nat) : Int)) := by
    have hshift : ((0 : Int) - (n.log2 - 52 + (0 : Nat))).toNat = 52 - n.log2 := by omega
    rw [decreaseExponent, hshift, Nat.shiftLeft_eq]
    congr 1
    omega
  change Float.ofModel (.pack (normalize .binary64 n.toUInt64.toNat 0 .positive)) = _
  rw [hword, UnpackedFloat.normalize, hcompare]
  dsimp only
  rw [Int.toNat_natCast, UnpackedFloat.round, htarget, hdecrease]
  dsimp only
  rw [round_canonical .positive (canonical_scaled hpos hn (k := 0) (by omega))]
  rfl

theorem shifted_value (n k : Nat) :
    ((n <<< 53 : ℕ) : ℚ) * 2 ^ (-(53 : ℕ) : Int) * ((10 ^ k : ℕ) * 2 ^ (0 : Int)) = n * 10 ^ k := by
  have hcancel : (2 : ℚ) ^ 53 * 2 ^ (-53 : Int) = 1 := by norm_num
  rw [Nat.shiftLeft_eq, Nat.cast_mul, Nat.cast_pow, Nat.cast_pow, Nat.cast_ofNat, Nat.cast_ofNat,
    Nat.cast_ofNat, mul_assoc (n : ℚ), hcancel, mul_one, zpow_zero, mul_one]

theorem ofScientific_nonneg {n k m : Nat} {e : Int} (hpos : 0 < n) (hk : k ≤ 2048)
    (hm : Canonical m e) (hv : InRange m e ((n : ℚ) * 10 ^ k / 2 ^ e)) :
    ofScientific .binary64 n k = .finite .positive m e hm.pos := by
  have hlarge : ¬ (k : Int) > 2 ^ Format.binary64.exponentBits := by
    change ¬ (k : Int) > 2048
    omega
  have hsmall : ¬ (k : Int) < -((2 ^ Format.binary64.exponentBits : Int) + n.log2) := by
    change ¬ (k : Int) < -(2048 + n.log2)
    omega
  have hbits : 2 ^ 52 ≤ n <<< 53 * 10 ^ k := by
    rw [Nat.shiftLeft_eq]
    calc 2 ^ 52 ≤ 1 * 2 ^ 53 * 1 := by norm_num
      _ ≤ n * 2 ^ 53 * 10 ^ k :=
        Nat.mul_le_mul (Nat.mul_le_mul_right _ hpos) (Nat.one_le_pow _ _ (by decide))
  rw [ofScientific, dif_neg hpos.ne', if_neg hlarge, if_neg hsmall, if_pos (by omega)]
  refine mul_eq hm hbits ?_
  rwa [mantissaBits_eq, Int.toNat_natCast, shifted_value]

theorem ofScientific_neg {n k m : Nat} {e : Int} (hpos : 0 < n) (h0 : 0 < k) (hk : k ≤ 2048)
    (hm : Canonical m e) (hv : InRange m e ((n : ℚ) / 10 ^ k / 2 ^ e)) :
    ofScientific .binary64 n (-k) = .finite .positive m e hm.pos := by
  have hlarge : ¬ (-k : Int) > 2 ^ Format.binary64.exponentBits := by
    change ¬ (-k : Int) > 2048
    omega
  have hsmall : ¬ (-k : Int) < -((2 ^ Format.binary64.exponentBits : Int) + n.log2) := by
    change ¬ (-k : Int) < -(2048 + n.log2)
    omega
  rw [ofScientific, dif_neg hpos.ne', if_neg hlarge, if_neg hsmall, if_neg (by omega)]
  refine div_eq hm (by omega) ?_
  simpa using hv

/-- The decimal `n · 10 ^ k`, or `n / 10 ^ k` where the exponent is negative. -/
def decimalValue (n : Nat) (negative : Bool) (k : Nat) : ℚ :=
  if negative then n / 10 ^ k else n * 10 ^ k

theorem ofScientific_decimal {n k m : Nat} {negative : Bool} {e : Int} (hpos : 0 < n)
    (hk : k ≤ 2048) (hm : Canonical m e) (hv : InRange m e (decimalValue n negative k / 2 ^ e)) :
    ofScientific .binary64 n (if negative then Int.negOfNat k else k) =
      .finite .positive m e hm.pos := by
  cases negative with
  | false => exact ofScientific_nonneg hpos hk hm hv
  | true =>
      rcases Nat.eq_zero_or_pos k with rfl | h0
      · have hv' : InRange m e ((n : ℚ) * 10 ^ 0 / 2 ^ e) := by simpa [decimalValue] using hv
        exact ofScientific_nonneg hpos hk hm hv'
      · rw [if_pos rfl, Int.negOfNat_eq]
        exact ofScientific_neg hpos h0 hk hm hv

section

variable {m m₁ m₂ : Nat} {e e₁ e₂ : Int} {h₁ : Canonical m₁ e₁} {h₂ : Canonical m₂ e₂}

theorem mul_double (s₁ s₂ : Sign) (hm : Canonical m e) (hbits : 2 ^ 52 ≤ m₁ * m₂)
    (hv : InRange m e ((m₁ : ℚ) * 2 ^ e₁ * (m₂ * 2 ^ e₂) / 2 ^ e)) :
    double s₁ h₁ * double s₂ h₂ = double (s₁ * s₂) hm := by
  change Float.ofModel (.pack (mul .binary64 (double _ _).toModel.unpack
    (double _ _).toModel.unpack)) = _
  rw [double_unpack, double_unpack, mul_eq hm hbits hv]
  rfl

theorem div_double (s₁ s₂ : Sign) (hm : Canonical m e) (hleast : -1074 ≤ e₁ - e₂)
    (hv : InRange m e ((m₁ : ℚ) * 2 ^ e₁ / (m₂ * 2 ^ e₂) / 2 ^ e)) :
    double s₁ h₁ / double s₂ h₂ = double (s₁ / s₂) hm := by
  change Float.ofModel (.pack (div .binary64 (double _ _).toModel.unpack
    (double _ _).toModel.unpack)) = _
  rw [double_unpack, double_unpack, div_eq hm hleast hv]
  rfl

end

theorem ofScientific_eq {n k m : Nat} {negative : Bool} {e : Int} (hpos : 0 < n) (hk : k ≤ 2048)
    (hm : Canonical m e) (hv : InRange m e (decimalValue n negative k / 2 ^ e)) :
    Float.ofScientific n negative k = double .positive hm := by
  rw [Float.ofScientific]
  split
  · -- significand and power of ten are doubles, and one operation rounds them
    rename_i hsmall
    obtain ⟨hn, hten⟩ := hsmall
    have hfive := five_pow_lt hten
    have hsignificand := scaled_value hpos hn 0
    have hpower : ((5 ^ k * 2 ^ (52 - (5 ^ k).log2) : ℕ) : ℚ) *
        2 ^ (((5 ^ k : ℕ).log2 : Int) - 52 + k) = 10 ^ k := by
      rw [scaled_value (by positivity) hfive k]
      push_cast
      rw [← mul_pow]
      norm_num
    rw [toFloat_eq hpos hn, powerOfTen_eq hten]
    cases negative with
    | false =>
        refine mul_double .positive .positive hm
          ((le_scaled hpos hn).trans (Nat.le_mul_of_pos_right _ (by positivity))) ?_
        rw [hsignificand, hpower]
        simpa [decimalValue] using hv
    | true =>
        have hlog := log2_le (n := 5 ^ k) (by positivity) hfive
        refine div_double .positive .positive hm (by omega) ?_
        rw [hsignificand, hpower]
        simpa [decimalValue] using hv
  · have hmodel := ofScientific_decimal hpos hk hm hv
    cases negative <;> exact congrArg (fun u => Float.ofModel (.pack u)) hmodel

end Rounding

end InfixArithmetic

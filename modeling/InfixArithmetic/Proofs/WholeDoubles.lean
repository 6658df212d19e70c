import InfixArithmetic.Operator
import InfixArithmetic.Proofs.DoubleValues

/-!
Whole doubles.  A difference of doubles is exact where it is a double (`stands_sub`), and so a
double that is not below zero stands for a natural number exactly if it has no fractional part, and
then for its whole part (`requireWhole_eq`).
-/

namespace InfixArithmetic

open Float.Model (Format UnpackedFloat)
open Float.Model.UnpackedFloat

namespace Rounding

open Binary64

/-- Where the double is too small for 53 bits the exponent is the least. -/
theorem exists_canonical {r : Nat} {e : Int} (hpos : 0 < r) (hr : r < 2 ^ 53) (he : -1074 ≤ e)
    (he' : e ≤ 971) : ∃ m e', Canonical m e' ∧ (m : ℚ) * 2 ^ e' = r * 2 ^ e := by
  have hlog := log2_le hpos hr
  have hlow := le_scaled hpos hr
  generalize hshift : min (52 - r.log2) (e + 1074).toNat = shift
  have hhigh : r * 2 ^ shift < 2 ^ 53 := by
    calc r * 2 ^ shift
        < 2 ^ (r.log2 + 1) * 2 ^ shift :=
          Nat.mul_lt_mul_of_pos_right Nat.lt_log2_self (by positivity)
      _ = 2 ^ (r.log2 + 1 + shift) := (pow_add ..).symm
      _ ≤ 2 ^ 53 := Nat.pow_le_pow_right (by omega) (by omega)
  refine ⟨r * 2 ^ shift, e - shift, ⟨by positivity, hhigh, by omega, by omega, ?_⟩, ?_⟩
  · rcases Nat.le_total (52 - r.log2) (e + 1074).toNat with h | h
    · obtain rfl : shift = 52 - r.log2 := by omega
      exact .inl hlow
    · exact .inr (by omega)
  · rw [zpow_sub₀ two_ne_zero, zpow_natCast]
    push_cast
    field_simp

theorem sub_eq_normalize {m₁ m₂ : Nat} (e₁ e₂ : Int) (h₁ : 0 < m₁) (h₂ : 0 < m₂) :
    ∃ z t : Int, sub .binary64 (.finite .positive m₁ e₁ h₁) (.finite .positive m₂ e₂ h₂) =
      normalize .binary64 z t .positive ∧ (z : ℚ) * 2 ^ t = m₁ * 2 ^ e₁ - m₂ * 2 ^ e₂ := by
  have ht₁ : min e₁ e₂ ≤ e₁ := by omega
  have ht₂ : min e₁ e₂ ≤ e₂ := by omega
  refine ⟨(m₁ * 2 ^ (e₁ - min e₁ e₂).toNat : ℕ) - (m₂ * 2 ^ (e₂ - min e₁ e₂).toNat : ℕ),
    min e₁ e₂, ?_, ?_⟩
  · simp only [sub]
    rw [decreaseExponent_of_le ht₁, decreaseExponent_of_le ht₂]
    rfl
  · rw [Int.cast_sub, Int.cast_natCast, Int.cast_natCast, sub_mul, value_of_le ht₁,
      value_of_le ht₂]

theorem stands_sub {m₁ m₂ r : Nat} {e₁ e₂ e : Int} (h₁ : Canonical m₁ e₁) (h₂ : Canonical m₂ e₂)
    (hr : r < 2 ^ 53) (he : -1074 ≤ e) (he' : e ≤ 971)
    (hd : (m₁ : ℚ) * 2 ^ e₁ - m₂ * 2 ^ e₂ = r * 2 ^ e) :
    Stands (double .positive h₁ - double .positive h₂) (r * 2 ^ e) := by
  obtain ⟨z, t, hsub, hz⟩ := sub_eq_normalize e₁ e₂ h₁.pos h₂.pos
  have hunpack : double .positive h₁ - double .positive h₂ =
      .ofModel (.pack (normalize .binary64 z t .positive)) := by
    rw [← hsub, ← double_unpack .positive h₁, ← double_unpack .positive h₂]
    rfl
  rw [hunpack]
  rw [hd] at hz
  rcases Nat.eq_zero_or_pos r with rfl | hpos
  · have hzero : z = 0 := by
      have : (0 : ℚ) < 2 ^ t := by positivity
      simpa [this.ne'] using hz
    have hnormal : normalize .binary64 0 t .positive = .zero .positive := rfl
    rw [hzero, hnormal, Nat.cast_zero, zero_mul]
    exact .zero .positive
  · have hzpos : 0 < z := by
      have hq : (0 : ℚ) < z * 2 ^ t := by
        rw [hz]
        have : (0 : ℚ) < r := by exact_mod_cast hpos
        positivity
      exact_mod_cast pos_of_mul_pos_left hq (by positivity)
    obtain ⟨n, rfl⟩ := Int.eq_ofNat_of_zero_le hzpos.le
    obtain ⟨m, e', hm, hv⟩ := exists_canonical hpos hr he he'
    have hexact : (n : ℚ) * 2 ^ t = m * 2 ^ e' := by
      rw [hv, ← hz]
      norm_cast
    have hrange : InRange m e' ((n : ℚ) * 2 ^ t / 2 ^ e') := by
      rw [hexact, mul_div_cancel_right₀ _ (by positivity)]
      exact inRange_self m e'
    have hn : 0 < n := Int.natCast_pos.mp hzpos
    rw [normalize_eq hm hn hrange, ← hv]
    exact .positive hm

theorem sub_zero_double {m : Nat} {e : Int} (s : Sign) (h : Canonical m e) :
    double s h - zero .positive = double s h := by
  change Float.ofModel (.pack (sub .binary64 (double s h).toModel.unpack
    (zero .positive).toModel.unpack)) = _
  rw [double_unpack, zero_unpack]
  rfl

theorem truncate_double {m : Nat} {e : Int} (h : Canonical m e) :
    truncate (double .positive h) =
      if 0 ≤ e then double .positive h else Float.ofNat (finite false m e).wholePart := by
  rw [truncate, ofFloat, double_unpack]
  cases e <;> rfl

theorem sub_div_eq_mod (m k : Nat) :
    (m : ℚ) * 2 ^ (Int.negSucc k) - (m / 2 ^ (k + 1) : ℕ) =
      (m % 2 ^ (k + 1) : ℕ) * 2 ^ (Int.negSucc k) := by
  have hmod : ((m / 2 ^ (k + 1) : ℕ) : ℚ) * 2 ^ (k + 1) + (m % 2 ^ (k + 1) : ℕ) = m := by
    exact_mod_cast Nat.div_add_mod' m (2 ^ (k + 1))
  rw [zpow_negSucc, ← div_eq_mul_inv, ← div_eq_mul_inv, sub_eq_iff_eq_add, div_eq_iff,
    add_mul, div_mul_cancel₀]
  · linarith
  · positivity
  · positivity

theorem stands_fractionalPart_double {m : Nat} {e : Int} (h : Canonical m e) :
    Stands (fractionalPart (double .positive h)) (m * 2 ^ e - (finite false m e).wholePart) := by
  have hlt := h.lt
  rw [fractionalPart, truncate_double]
  cases e with
  | ofNat k =>
      have hwhole : (m : ℚ) * 2 ^ (Int.ofNat k) = (finite false m (.ofNat k)).wholePart := by
        rw [wholePart, Int.ofNat_eq_natCast, zpow_natCast]
        norm_cast
      have hself := stands_sub (r := 0) h h (by norm_num) h.least h.greatest (by simp)
      have hk : (0 : Int) ≤ .ofNat k := Int.natCast_nonneg k
      rw [if_pos hk, ← hwhole, sub_self]
      simpa using hself
  | negSucc k =>
      have hrest := sub_div_eq_mod m k
      have hpart : (finite false m (.negSucc k)).wholePart = m / 2 ^ (k + 1) := rfl
      rw [if_neg (by omega), hpart, hrest]
      rcases Nat.eq_zero_or_pos (m / 2 ^ (k + 1)) with hw | hw
      · have hzero : Float.ofNat 0 = zero .positive := by decide
        rw [hw, Nat.cast_zero, sub_zero] at hrest
        rw [hw, hzero, sub_zero_double, ← hrest]
        exact .positive h
      · have hwlt : m / 2 ^ (k + 1) < 2 ^ 53 := (Nat.div_le_self ..).trans_lt hlt
        rw [ofNat_eq hw hwlt]
        refine stands_sub h _ ((Nat.mod_le ..).trans_lt hlt) h.least h.greatest ?_
        rw [mantissa_value hw hwlt, hrest]

theorem Stands.fractionalPart {x : Float} {p : ℚ} (h : Stands x p) (hp : 0 ≤ p) :
    Stands (fractionalPart x) (p - (ofFloat x).wholePart) := by
  cases h with
  | zero s =>
      have hpart : (ofFloat (InfixArithmetic.zero s)).wholePart = 0 := by
        cases s <;> decide
      have hrest : InfixArithmetic.fractionalPart (InfixArithmetic.zero s) = 0.0 := by
        cases s <;> decide
      rw [hpart, hrest, Nat.cast_zero, sub_zero]
      exact .zero .positive
  | @positive m e h =>
      have hfloat : ofFloat (double .positive h) = finite false m e := by
        rw [ofFloat, double_unpack]
        rfl
      rw [hfloat]
      exact stands_fractionalPart_double h
  | @negative m e h =>
      have hpos : (0 : ℚ) < m * 2 ^ e := mul_pos (by exact_mod_cast h.pos) (by positivity)
      linarith

theorem Stands.bne_iff {x y : Float} {p q : ℚ} (hx : Stands x p) (hy : Stands y q) :
    (x != y) = true ↔ p ≠ q := by
  have heq : (x == y) = (x.toModel.unpack.compare y.toModel.unpack == some .eq) := rfl
  rw [bne, heq, compare_eq hx hy]
  simp

/-- An infinity has no number for its fractional part, which then differs from zero. -/
theorem fractionalPart_bne_of_not_finite {x : Float} (h : x.isFinite = false) :
    (fractionalPart x != 0.0) = true := by
  have hx : x = 0.0 / 0.0 ∨ x = 1.0 / 0.0 ∨ x = -1.0 / 0.0 := by
    cases hu : x.toModel.unpack with
    | notANumber => exact .inl (eq_of_unpack_eq hu)
    | infinity s =>
        cases s with
        | positive => exact .inr (.inl (eq_of_unpack_eq hu))
        | negative => exact .inr (.inr (eq_of_unpack_eq hu))
    | zero s => exact absurd h (by rw [eq_zero hu]; cases s <;> decide)
    | finite s m e hpos => exact absurd h (by rw [eq_double hu, isFinite_double]; decide)
  rcases hx with rfl | rfl | rfl <;> decide

theorem wholePart_of_natural? {b : Binary64} {n : Nat} (h : b.natural? = some n) :
    b.wholePart = n := by
  cases b with
  | notANumber => cases h
  | infinite negative => cases h
  | finite negative m e =>
      simp only [natural?] at h
      split at h
      · cases h
      · cases e with
        | ofNat k => exact Option.some.inj h
        | negSucc k =>
            simp only [whole?] at h
            split at h
            · exact Option.some.inj h
            · cases h

end Rounding

/-- Having no fractional part and equalling a natural number are one for a double not below zero. -/
theorem requireWhole_eq (function : WholeFunction) {x : Float} (hx : ¬ x < 0.0) :
    requireWhole function x =
      match (Binary64.ofFloat x).natural? with
      | none => .error (.notWhole function x)
      | some n => .ok n := by
  have hzero : Rounding.Stands 0.0 0 := .zero .positive
  rw [requireWhole]
  cases hf : x.isFinite with
  | false =>
      rw [if_pos (Rounding.fractionalPart_bne_of_not_finite hf)]
      cases hn : (Binary64.ofFloat x).natural? with
      | none => rfl
      | some n =>
          have hfinite := Rounding.isFinite_iff.mpr ⟨n, Rounding.natural?_ofFloat.mp hn⟩
          rw [hf] at hfinite
          cases hfinite
  | true =>
      obtain ⟨p, hp⟩ := Rounding.isFinite_iff.mp hf
      have hnonneg : 0 ≤ p := by rwa [hp.lt_iff hzero, not_lt] at hx
      have htest := (hp.fractionalPart hnonneg).bne_iff hzero
      cases hn : (Binary64.ofFloat x).natural? with
      | none =>
          refine if_pos (htest.mpr fun hwhole => ?_)
          rw [sub_eq_zero.mp hwhole] at hp
          rw [Rounding.natural?_ofFloat.mpr hp] at hn
          cases hn
      | some n =>
          have hvalue := hp.value?.symm.trans (Rounding.natural?_ofFloat.mp hn).value?
          have hwhole := Rounding.wholePart_of_natural? hn
          rw [if_neg (fun h => htest.mp h (by rw [Option.some.inj hvalue, hwhole, sub_self])),
            hwhole]

end InfixArithmetic

import InfixArithmetic.Proofs.PrintedDigits

/-!
The values of doubles.  A finite double stands for one rational number (`Binary64.value?`), and
doubles compare as the numbers that they stand for (`compare_eq`).  The whole numbers below
`2 ^ 53` are doubles, and their sums are exact (`ofNat_add`).
-/

namespace InfixArithmetic

open Float.Model (Format UnpackedFloat)
open Float.Model.UnpackedFloat

namespace Binary64

def value? : Binary64 → Option ℚ
  | .finite negative m e => some ((if negative then -1 else 1) * (m * 2 ^ e))
  | _ => none

theorem whole?_eq_some {m : Nat} {e : Int} {n : Nat} :
    whole? m e = some n ↔ (m : ℚ) * 2 ^ e = n := by
  cases e with
  | ofNat k =>
      rw [whole?, Option.some_inj, Int.ofNat_eq_natCast, zpow_natCast]
      norm_cast
  | negSucc k =>
      have hpow : (0 : ℚ) < 2 ^ (k + 1) := by positivity
      rw [zpow_negSucc, ← div_eq_mul_inv, div_eq_iff hpow.ne', whole?]
      norm_cast
      constructor
      · intro h
        split at h
        · rename_i hdvd
          rw [← Option.some.inj h]
          exact (Nat.div_mul_cancel (Nat.dvd_of_mod_eq_zero hdvd)).symm
        · exact absurd h nofun
      · rintro rfl
        exact (if_pos (Nat.mul_mod_left n _)).trans
          (congrArg some (Nat.mul_div_cancel n (by positivity)))

theorem natural?_eq_some {b : Binary64} {n : Nat} :
    b.natural? = some n ↔ b.value? = some (n : ℚ) := by
  cases b with
  | notANumber => simp [natural?, value?]
  | infinite negative => simp [natural?, value?]
  | finite negative m e =>
      have hwhole := whole?_eq_some (m := m) (e := e) (n := n)
      cases negative with
      | false => simpa [natural?, value?] using hwhole
      | true =>
          rcases Nat.eq_zero_or_pos m with rfl | hm
          · simpa [natural?, value?] using hwhole
          · have hpos : (0 : ℚ) < m * 2 ^ e := by positivity
            have hne : -((m : ℚ) * 2 ^ e) ≠ n := by
              have : (0 : ℚ) ≤ n := by positivity
              linarith
            simp [natural?, value?, hm.ne', hne]

end Binary64

namespace Rounding

open Binary64

theorem Canonical.lt_of_exponent_lt {m₁ m₂ : Nat} {e₁ e₂ : Int} (h₁ : Canonical m₁ e₁)
    (h₂ : Canonical m₂ e₂) (he : e₁ < e₂) : (m₁ : ℚ) * 2 ^ e₁ < m₂ * 2 ^ e₂ := by
  have hleast := h₁.least
  have hlow : (2 : ℚ) ^ 52 ≤ m₂ := by exact_mod_cast h₂.normal.resolve_right (by omega)
  have hhigh : (m₁ : ℚ) < 2 ^ 53 := by exact_mod_cast h₁.lt
  calc (m₁ : ℚ) * 2 ^ e₁
      < 2 ^ 53 * 2 ^ e₁ := mul_lt_mul_of_pos_right hhigh (by positivity)
    _ = 2 ^ 52 * 2 ^ (e₁ + 1) := by rw [zpow_add_one₀ two_ne_zero]; ring
    _ ≤ 2 ^ 52 * 2 ^ e₂ := by gcongr <;> [norm_num; omega]
    _ ≤ m₂ * 2 ^ e₂ := mul_le_mul_of_nonneg_right hlow (by positivity)

theorem compare_map {α : Type} [LinearOrder α] {f : α → ℚ} (hf : StrictMono f) (a b : α) :
    compare (f a) (f b) = compare a b := by
  rw [← cmp_eq_compare, ← cmp_eq_compare, hf.cmp_map_eq]

theorem compare_neg_neg (p q : ℚ) : compare (-p) (-q) = (compare p q).swap := by
  have hneg : StrictAnti fun r : ℚ => -r := fun _ _ => neg_lt_neg
  rw [← cmp_eq_compare, ← cmp_eq_compare, cmp_swap]
  exact hneg.cmp_map_eq p q

theorem Canonical.compare_eq {m₁ m₂ : Nat} {e₁ e₂ : Int} (h₁ : Canonical m₁ e₁)
    (h₂ : Canonical m₂ e₂) :
    (compare e₁ e₂).then (compare m₁ m₂) = compare ((m₁ : ℚ) * 2 ^ e₁) (m₂ * 2 ^ e₂) := by
  rcases lt_trichotomy e₁ e₂ with he | rfl | he
  · rw [compare_lt_iff_lt.mpr he, compare_lt_iff_lt.mpr (h₁.lt_of_exponent_lt h₂ he)]
    rfl
  · have hmono : StrictMono fun m : ℕ => (m : ℚ) * 2 ^ e₁ :=
      fun a b hab => mul_lt_mul_of_pos_right (by exact_mod_cast hab) (by positivity)
    rw [compare_eq_iff_eq.mpr rfl]
    exact (compare_map hmono m₁ m₂).symm
  · rw [compare_gt_iff_gt.mpr he, compare_gt_iff_gt.mpr (h₂.lt_of_exponent_lt h₁ he)]
    rfl

/-- The finite doubles and the numbers they stand for. -/
inductive Stands : Float → ℚ → Prop
  | zero (s : Sign) : Stands (zero s) 0
  | positive {m : Nat} {e : Int} (h : Canonical m e) : Stands (double .positive h) (m * 2 ^ e)
  | negative {m : Nat} {e : Int} (h : Canonical m e) : Stands (double .negative h) (-(m * 2 ^ e))

theorem eq_zero {x : Float} {s : Sign} (h : x.toModel.unpack = .zero s) : x = zero s :=
  eq_of_unpack_eq (h.trans (zero_unpack s).symm)

theorem stands_of_value? {x : Float} {p : ℚ} (h : (ofFloat x).value? = some p) : Stands x p := by
  unfold ofFloat at h
  split at h
  · exact absurd h nofun
  · exact absurd h nofun
  · rename_i s hu
    obtain rfl : 0 = p := by simpa [value?] using h
    rw [eq_zero hu]
    exact .zero s
  · rename_i s m e hpos hu
    rw [eq_double hu]
    cases s with
    | positive =>
        obtain rfl : (m : ℚ) * 2 ^ e = p := by simpa [value?, isNegative] using h
        exact .positive _
    | negative =>
        obtain rfl : -((m : ℚ) * 2 ^ e) = p := by simpa [value?, isNegative] using h
        exact .negative _

theorem Stands.value? {x : Float} {p : ℚ} (h : Stands x p) : (ofFloat x).value? = some p := by
  cases h <;> simp [ofFloat, zero_unpack, Binary64.value?, isNegative]

theorem isFinite_iff {x : Float} : x.isFinite = true ↔ ∃ p, Stands x p := by
  have hfinite : x.isFinite = x.toModel.unpack.isFinite := rfl
  constructor
  · intro h
    cases hu : x.toModel.unpack with
    | notANumber => simp [hfinite, hu, UnpackedFloat.isFinite] at h
    | infinity s => simp [hfinite, hu, UnpackedFloat.isFinite] at h
    | zero s => exact ⟨0, eq_zero hu ▸ .zero s⟩
    | finite s m e hpos =>
        rw [eq_double hu]
        cases s with
        | positive => exact ⟨_, .positive _⟩
        | negative => exact ⟨_, .negative _⟩
  · rintro ⟨p, h⟩
    cases h with
    | zero s => rw [hfinite, zero_unpack]; rfl
    | positive h => exact isFinite_double .positive h
    | negative h => exact isFinite_double .negative h

theorem isNaN_of_isFinite {x : Float} (h : x.isFinite = true) : x.isNaN = false := by
  change x.toModel.unpack.isFinite = true at h
  change x.toModel.unpack.isNaN = false
  cases hu : x.toModel.unpack with
  | notANumber => rw [hu] at h; exact absurd h nofun
  | infinity s => rfl
  | zero s => rfl
  | finite s m e hpos => rfl

theorem natural?_ofFloat {x : Float} {n : Nat} : (ofFloat x).natural? = some n ↔ Stands x n := by
  rw [natural?_eq_some]
  exact ⟨stands_of_value?, Stands.value?⟩

theorem compare_eq {x y : Float} {p q : ℚ} (hx : Stands x p) (hy : Stands y q) :
    x.toModel.unpack.compare y.toModel.unpack = some (compare p q) := by
  have hmag {m : Nat} {e : Int} (h : Canonical m e) : (0 : ℚ) < m * 2 ^ e :=
    mul_pos (by exact_mod_cast h.pos) (by positivity)
  cases hx with
  | zero =>
      rw [zero_unpack]
      cases hy with
      | zero => rw [zero_unpack, compare_eq_iff_eq.mpr rfl]; rfl
      | positive h => rw [double_unpack, compare_lt_iff_lt.mpr (hmag h)]; rfl
      | negative h => rw [double_unpack, compare_gt_iff_gt.mpr (neg_neg_of_pos (hmag h))]; rfl
  | positive h =>
      rw [double_unpack]
      cases hy with
      | zero => rw [zero_unpack, compare_gt_iff_gt.mpr (hmag h)]; rfl
      | positive h' => rw [double_unpack, ← h.compare_eq h']; rfl
      | negative h' =>
          rw [double_unpack, compare_gt_iff_gt.mpr ((neg_neg_of_pos (hmag h')).trans (hmag h))]
          rfl
  | negative h =>
      rw [double_unpack]
      cases hy with
      | zero => rw [zero_unpack, compare_lt_iff_lt.mpr (neg_neg_of_pos (hmag h))]; rfl
      | positive h' =>
          rw [double_unpack, compare_lt_iff_lt.mpr ((neg_neg_of_pos (hmag h)).trans (hmag h'))]
          rfl
      | negative h' => rw [double_unpack, compare_neg_neg, ← h.compare_eq h']; rfl

theorem Stands.le_iff {x y : Float} {p q : ℚ} (hx : Stands x p) (hy : Stands y q) :
    x ≤ y ↔ p ≤ q := by
  change decide ((x.toModel.unpack.compare y.toModel.unpack).any (·.isLE) = true) = true ↔ _
  rw [compare_eq hx hy, decide_eq_true_iff, Option.any_some, ← Ordering.ne_gt_iff_isLE]
  exact compare_le_iff_le

theorem Stands.lt_iff {x y : Float} {p q : ℚ} (hx : Stands x p) (hy : Stands y q) :
    x < y ↔ p < q := by
  change decide ((x.toModel.unpack.compare y.toModel.unpack == some .lt) = true) = true ↔ _
  rw [compare_eq hx hy, decide_eq_true_iff, beq_iff_eq, Option.some_inj]
  exact compare_lt_iff_lt

theorem stands_natural_iff {x : Float} : (∃ n : Nat, Stands x n) ↔
    x.isFinite = true ∧ (∃ z : Int, (ofFloat x).value? = some (z : ℚ)) ∧ ¬ x < 0.0 := by
  have hzero : Stands 0.0 0 := .zero .positive
  constructor
  · rintro ⟨n, hn⟩
    refine ⟨isFinite_iff.mpr ⟨n, hn⟩, ⟨n, hn.value?⟩, ?_⟩
    rw [hn.lt_iff hzero]
    exact not_lt.mpr (Nat.cast_nonneg n)
  · rintro ⟨-, ⟨z, hz⟩, hnonneg⟩
    have hx := stands_of_value? hz
    rw [hx.lt_iff hzero, not_lt] at hnonneg
    obtain ⟨n, rfl⟩ := Int.eq_ofNat_of_zero_le (Int.cast_nonneg_iff.mp hnonneg)
    exact ⟨n, hx⟩

theorem infinity_unpack : (1.0 / 0.0 : Float).toModel.unpack = .infinity .positive :=
  rfl

theorem Stands.le_infinity {x : Float} {p : ℚ} (h : Stands x p) : x ≤ 1.0 / 0.0 := by
  change decide ((x.toModel.unpack.compare _).any (·.isLE) = true) = true
  rw [infinity_unpack]
  cases h with
  | zero => rw [zero_unpack]; rfl
  | positive => rw [double_unpack]; rfl
  | negative => rw [double_unpack]; rfl

theorem mantissa_value {n : Nat} (hpos : 0 < n) (hn : n < 2 ^ 53) :
    ((n * 2 ^ (52 - n.log2) : ℕ) : ℚ) * 2 ^ ((n.log2 : Int) - 52 + (0 : ℕ)) = n := by
  rw [scaled_value hpos hn 0, pow_zero, mul_one]

theorem inRange_mantissa {n : Nat} (hpos : 0 < n) (hn : n < 2 ^ 53) :
    InRange (n * 2 ^ (52 - n.log2)) ((n.log2 : Int) - 52 + (0 : ℕ))
      (n / 2 ^ ((n.log2 : Int) - 52 + (0 : ℕ))) := by
  have h := inRange_self (n * 2 ^ (52 - n.log2)) ((n.log2 : Int) - 52 + (0 : ℕ))
  rwa [← mantissa_value hpos hn, mul_div_cancel_right₀ _ (by positivity)]

theorem ofNat_eq {n : Nat} (hpos : 0 < n) (hn : n < 2 ^ 53) :
    Float.ofNat n = double .positive (canonical_scaled hpos hn (Nat.zero_le 971)) := by
  refine ofScientific_eq hpos (by omega) _ ?_
  rw [show decimalValue n false 0 = n by simp [decimalValue]]
  exact inRange_mantissa hpos hn

theorem stands_ofNat {n : Nat} (hpos : 0 < n) (hn : n < 2 ^ 53) : Stands (Float.ofNat n) n := by
  rw [ofNat_eq hpos hn, ← mantissa_value hpos hn]
  exact .positive _

theorem decreaseExponent_of_le {a : Nat} {k t : Int} (ht : t ≤ k) :
    decreaseExponent a k t = (a * 2 ^ (k - t).toNat, t) := by
  rw [decreaseExponent, Nat.shiftLeft_eq]
  congr 1
  omega

theorem value_of_le {a : Nat} {k t : Int} (ht : t ≤ k) :
    ((a * 2 ^ (k - t).toNat : ℕ) : ℚ) * 2 ^ t = a * 2 ^ k := by
  push_cast
  rw [mul_assoc, ← zpow_natCast (2 : ℚ), ← zpow_add₀ two_ne_zero]
  congr 2
  omega

theorem log2_shiftLeft {q : Nat} (hpos : 0 < q) (k : Nat) : (q <<< k).log2 = q.log2 + k := by
  induction k with
  | zero => rfl
  | succ k ih =>
      have hne : q <<< k ≠ 0 := by
        rw [Nat.shiftLeft_eq]
        positivity
      rw [Nat.shiftLeft_succ, Nat.log2_two_mul hne, ih, Nat.add_assoc]

theorem totalExponent_shiftLeft {q : Nat} (hpos : 0 < q) (t : Int) (k : Nat) :
    Float.Model.totalExponent (q <<< k) (t - k) = Float.Model.totalExponent q t := by
  rw [Float.Model.totalExponent, Float.Model.totalExponent, log2_shiftLeft hpos]
  omega

theorem round_eq {m q : Nat} {e t : Int} (s : Sign) (hm : Canonical m e) (hpos : 0 < q)
    (hv : InRange m e ((q : ℚ) * 2 ^ t / 2 ^ e)) :
    UnpackedFloat.round .binary64 s q t = .finite s m e hm.pos := by
  simp only [UnpackedFloat.round, decreaseExponent]
  generalize hT : Format.binary64.targetExponent (Float.Model.totalExponent q t) = T
  have hdown : t - (t - T).toNat ≤ T := by omega
  generalize (t - T).toNat = k at *
  have hholds : Holds (.ofMantissaAndAccuracy (q <<< k) .exact)
      ((q : ℚ) * 2 ^ t / 2 ^ (t - k)) := by
    rw [zpow_sub₀ two_ne_zero, zpow_natCast, Nat.shiftLeft_eq]
    simp only [Holds, ExtendedMantissa.ofMantissaAndAccuracy]
    push_cast
    field_simp
  have hshifted : 0 < q <<< k := by
    rw [Nat.shiftLeft_eq]
    positivity
  refine roundWithAccuracy_eq s hm (.inl hshifted) hholds ?_ hv
  rwa [totalExponent_shiftLeft hpos, hT]

theorem normalize_eq {m n : Nat} {e t : Int} (hm : Canonical m e) (hpos : 0 < n)
    (hv : InRange m e ((n : ℚ) * 2 ^ t / 2 ^ e)) :
    normalize .binary64 (n : Int) t .positive = .finite .positive m e hm.pos := by
  have hcompare : compare (n : Int) 0 = .gt := Int.compare_eq_gt.mpr (by omega)
  rw [UnpackedFloat.normalize, hcompare]
  exact round_eq .positive hm hpos hv

/-- Two mantissas over the lesser of their exponents add up exactly, and the sum is then rounded. -/
theorem add_eq {m m₁ m₂ : Nat} {e e₁ e₂ : Int} (h₁ : Canonical m₁ e₁) (h₂ : Canonical m₂ e₂)
    (hm : Canonical m e) (hv : InRange m e (((m₁ : ℚ) * 2 ^ e₁ + m₂ * 2 ^ e₂) / 2 ^ e)) :
    add .binary64 (.finite .positive m₁ e₁ h₁.pos) (.finite .positive m₂ e₂ h₂.pos) =
      .finite .positive m e hm.pos := by
  simp only [add]
  generalize ht : min e₁ e₂ = t
  have ht₁ : t ≤ e₁ := by omega
  have ht₂ : t ≤ e₂ := by omega
  rw [decreaseExponent_of_le ht₁, decreaseExponent_of_le ht₂]
  have hleft := value_of_le (a := m₁) ht₁
  have hright := value_of_le (a := m₂) ht₂
  have hlow : m₁ ≤ m₁ * 2 ^ (e₁ - t).toNat := Nat.le_mul_of_pos_right _ (by positivity)
  generalize m₁ * 2 ^ (e₁ - t).toNat = a at *
  generalize m₂ * 2 ^ (e₂ - t).toNat = b at *
  have hpos : 0 < a + b := Nat.add_pos_left (h₁.pos.trans_le hlow) b
  refine normalize_eq hm hpos ?_
  rwa [Nat.cast_add, add_mul, hleft, hright]

theorem add_double {m m₁ m₂ : Nat} {e e₁ e₂ : Int} {h₁ : Canonical m₁ e₁} {h₂ : Canonical m₂ e₂}
    (hm : Canonical m e) (hv : InRange m e (((m₁ : ℚ) * 2 ^ e₁ + m₂ * 2 ^ e₂) / 2 ^ e)) :
    double .positive h₁ + double .positive h₂ = double .positive hm := by
  change Float.ofModel (.pack (add .binary64 (double _ _).toModel.unpack
    (double _ _).toModel.unpack)) = _
  rw [double_unpack, double_unpack, add_eq h₁ h₂ hm hv]
  rfl

theorem ofNat_add {a b : Nat} (ha : 0 < a) (hb : 0 < b) (hab : a + b < 2 ^ 53) :
    Float.ofNat a + Float.ofNat b = Float.ofNat (a + b) := by
  rw [ofNat_eq ha (by omega), ofNat_eq hb (by omega), ofNat_eq (by omega) hab]
  refine add_double _ ?_
  rw [mantissa_value ha (by omega), mantissa_value hb (by omega), ← Nat.cast_add]
  exact inRange_mantissa (by omega) hab

end Rounding

end InfixArithmetic

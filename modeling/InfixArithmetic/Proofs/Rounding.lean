import Mathlib.Algebra.Order.Field.Power
import Mathlib.Data.Rat.Cast.Order
import Mathlib.Tactic.FieldSimp
import Mathlib.Tactic.Linarith
import Mathlib.Tactic.NormNum
import Mathlib.Tactic.Ring

/-!
Rounding to doubles.  A mantissa with its round and sticky bits stands for a range of values
(`Holds`), and rounding it gives the double that is nearest to the value (`roundWithAccuracy_eq`):
the one whose rounding range the value lies in.
-/

namespace InfixArithmetic

namespace Rounding

open Float.Model (Format UnpackedFloat totalExponent)
open Float.Model.UnpackedFloat

/-- The values that a mantissa with these bits stands for, in units of its last place. -/
def Holds (em : ExtendedMantissa) (x : ℚ) : Prop :=
  match em.roundBit, em.stickyBit with
  | false, false => x = em.mantissa
  | false, true => em.mantissa < x ∧ x < em.mantissa + 1 / 2
  | true, false => x = em.mantissa + 1 / 2
  | true, true => em.mantissa + 1 / 2 < x ∧ x < em.mantissa + 1

theorem Holds.bounds {em : ExtendedMantissa} {x : ℚ} (h : Holds em x) :
    em.mantissa ≤ x ∧ x < em.mantissa + 1 := by
  obtain ⟨m, r, s⟩ := em
  cases r <;> cases s <;> simp only [Holds] at h <;> constructor <;> linarith

theorem Holds.shiftRightOne {em : ExtendedMantissa} {x : ℚ} (h : Holds em x) :
    Holds em.shiftRightOne (x / 2) := by
  obtain ⟨m, r, s⟩ := em
  have hm : (m : ℚ) = 2 * (m / 2 : ℕ) + (m % 2 : ℕ) := by exact_mod_cast (Nat.div_add_mod m 2).symm
  rcases Nat.mod_two_eq_zero_or_one m with hp | hp <;> rw [hp] at hm <;>
    cases r <;> cases s <;> simp [Holds, ExtendedMantissa.shiftRightOne, hp] at h ⊢ <;>
    first | (constructor <;> linarith) | linarith

theorem Holds.shiftRight {em : ExtendedMantissa} {x : ℚ} (h : Holds em x) (places : Nat) :
    Holds (em >>> places) (x / 2 ^ places) := by
  change Holds (places.repeat ExtendedMantissa.shiftRightOne em) _
  induction places with
  | zero => simpa [Nat.repeat] using h
  | succ places ih =>
      rw [Nat.repeat, pow_succ, ← div_div]
      exact ih.shiftRightOne

/-- A whole number is the rounded mantissa where the value is at most a half from it, and exactly a
half only if it is even. -/
theorem Holds.roundedMantissa {em : ExtendedMantissa} {x : ℚ} {n : Nat} (h : Holds em x)
    (hlow : (n : ℚ) - 1 / 2 ≤ x) (hhigh : x ≤ n + 1 / 2)
    (htie : n % 2 = 1 → (n : ℚ) - 1 / 2 < x ∧ x < n + 1 / 2) : em.roundedMantissa = n := by
  have hn : n = em.mantissa ∨ n = em.mantissa + 1 := by
    obtain ⟨hl, hr⟩ := h.bounds
    have hle : (em.mantissa : ℚ) < n + 1 := by linarith
    have hlt : (n : ℚ) < em.mantissa + 2 := by linarith
    have hle' : em.mantissa < n + 1 := by exact_mod_cast hle
    have hlt' : n < em.mantissa + 2 := by exact_mod_cast hlt
    omega
  obtain ⟨m, r, s⟩ := em
  simp only [ExtendedMantissa.roundedMantissa, ExtendedMantissa.accuracy]
  rcases hn with rfl | rfl <;> cases r <;> cases s <;>
    simp only [Holds, Accuracy.roundToNearestEven] at h ⊢ <;> push_cast at *
  · have : ¬ n % 2 = 1 := fun hp => by linarith [(htie hp).2]
    omega
  · linarith [h.1]
  · linarith
  · linarith [h.2]
  · have : ¬ (m + 1) % 2 = 1 := fun hp => by linarith [(htie hp).1]
    omega

theorem holds_fraction (num : Nat) {den : Nat} (hd : 0 < den) :
    Holds (.ofMantissaAndAccuracy (num / den) (accuracyOfFraction (num % den) den))
      ((num : ℚ) / den) := by
  have hden : (0 : ℚ) < den := by exact_mod_cast hd
  have hx : (num : ℚ) / den = (num / den : ℕ) + ((num % den : ℕ) : ℚ) / den := by
    have hm : (num : ℚ) = den * (num / den : ℕ) + (num % den : ℕ) := by
      exact_mod_cast (Nat.div_add_mod num den).symm
    rw [div_eq_iff hden.ne', add_mul, div_mul_cancel₀ _ hden.ne', hm]
    ring
  have hr : ((num % den : ℕ) : ℚ) < den := by exact_mod_cast Nat.mod_lt num hd
  rw [hx, accuracyOfFraction]
  generalize num / den = q
  generalize num % den = r at hr
  split
  · rename_i hzero
    simp [Holds, ExtendedMantissa.ofMantissaAndAccuracy, hzero]
  · rename_i hne
    have hpos : (0 : ℚ) < r := by exact_mod_cast Nat.pos_of_ne_zero hne
    have hlt : (r : ℚ) / den < 1 := by rwa [div_lt_iff₀ hden, one_mul]
    have hgt : 0 < (r : ℚ) / den := div_pos hpos hden
    rcases Nat.lt_trichotomy (2 * r) den with h | h | h
    · have hhalf : (r : ℚ) / den < 1 / 2 := by
        rw [div_lt_iff₀ hden]
        have : (2 * r : ℚ) < den := by exact_mod_cast h
        linarith
      rw [Nat.compare_eq_lt.mpr h]
      simp only [Holds, ExtendedMantissa.ofMantissaAndAccuracy]
      constructor <;> linarith
    · have hhalf : (r : ℚ) / den = 1 / 2 := by
        rw [div_eq_iff hden.ne']
        have : (2 * r : ℚ) = den := by exact_mod_cast h
        linarith
      rw [Nat.compare_eq_eq.mpr h]
      simp only [Holds, ExtendedMantissa.ofMantissaAndAccuracy]
      linarith
    · have hhalf : 1 / 2 < (r : ℚ) / den := by
        rw [lt_div_iff₀ hden]
        have : (den : ℚ) < 2 * r := by exact_mod_cast h
        linarith
      rw [Nat.compare_eq_gt.mpr h]
      simp only [Holds, ExtendedMantissa.ofMantissaAndAccuracy]
      constructor <;> linarith

structure Canonical (m : Nat) (e : Int) : Prop where
  pos : 0 < m
  lt : m < 2 ^ 53
  least : -1074 ≤ e
  greatest : e ≤ 971
  normal : 2 ^ 52 ≤ m ∨ e = -1074

def gapBelow (m : Nat) (e : Int) : ℚ :=
  if m = 2 ^ 52 ∧ -1074 < e then 1 / 4 else 1 / 2

theorem gapBelow_le (m : Nat) (e : Int) : gapBelow m e ≤ 1 / 2 := by
  rw [gapBelow]
  split <;> norm_num

theorem gapBelow_pos (m : Nat) (e : Int) : 0 < gapBelow m e := by
  rw [gapBelow]
  split <;> norm_num

/-- The values that round to the mantissa, in units of its last place. -/
structure InRange (m : Nat) (e : Int) (x : ℚ) : Prop where
  low : m - gapBelow m e ≤ x
  high : x ≤ m + 1 / 2
  odd : m % 2 = 1 → m - gapBelow m e < x ∧ x < m + 1 / 2

theorem targetExponent_eq (l : Int) :
    Format.binary64.targetExponent l = max (l - 53) (-1074) :=
  rfl

theorem Canonical.targetExponent {m : Nat} {e : Int} (h : Canonical m e) :
    Format.binary64.targetExponent (totalExponent m e) = e := by
  rw [targetExponent_eq, totalExponent]
  have hlt : m.log2 < 53 := (Nat.log2_lt h.pos.ne').mpr h.lt
  have := h.least
  rcases h.normal with hm | hm
  · have : 52 ≤ m.log2 := (Nat.le_log2 h.pos.ne').mpr hm
    omega
  · omega

theorem Holds.binade {q : Nat} {t : Int} {acc : Accuracy} {v : ℚ}
    (h : Holds (.ofMantissaAndAccuracy q acc) (v / 2 ^ t)) :
    (0 < q → (2 : ℚ) ^ ((q.log2 : Int) + t) ≤ v) ∧ v < 2 ^ ((q.log2 : Int) + t + 1) := by
  have ht : (0 : ℚ) < 2 ^ t := by positivity
  have hmant : (ExtendedMantissa.ofMantissaAndAccuracy q acc).mantissa = q := by
    rcases acc with _ | (_ | _ | _) <;> rfl
  obtain ⟨hl, hh⟩ := h.bounds
  rw [hmant] at hl hh
  rw [le_div_iff₀ ht] at hl
  rw [div_lt_iff₀ ht] at hh
  have hhigh : (q : ℚ) + 1 ≤ ((2 ^ (q.log2 + 1) : ℕ) : ℚ) := by exact_mod_cast Nat.lt_log2_self
  rw [show (q.log2 : Int) + t + 1 = ((q.log2 + 1 : ℕ) : Int) + t by push_cast; ring,
    zpow_add₀ two_ne_zero, zpow_add₀ two_ne_zero, zpow_natCast, zpow_natCast]
  constructor
  · intro hq
    have hlow : ((2 ^ q.log2 : ℕ) : ℚ) ≤ q := by exact_mod_cast Nat.log2_self_le hq.ne'
    push_cast at hlow
    exact (mul_le_mul_of_nonneg_right hlow ht.le).trans hl
  · push_cast at hhigh
    exact hh.trans_le (mul_le_mul_of_nonneg_right hhigh ht.le)

theorem lt_zpow_of_div_lt {v : ℚ} {e : Int} {k : Nat} (h : v / 2 ^ e < 2 ^ k) :
    v < 2 ^ ((k : Int) + e) := by
  rwa [zpow_add₀ two_ne_zero, zpow_natCast, ← div_lt_iff₀ (by positivity)]

theorem zpow_le_of_le_div {v : ℚ} {e : Int} {k : Nat} (h : 2 ^ k ≤ v / 2 ^ e) :
    2 ^ ((k : Int) + e) ≤ v := by
  rwa [zpow_add₀ two_ne_zero, zpow_natCast, ← le_div_iff₀ (by positivity)]

/-- A value in the range of a double has the exponent of that double, or the one below where the
double is a power of two and the value is less. -/
theorem InRange.targetExponent {m : Nat} {e l : Int} {v : ℚ} (hm : Canonical m e)
    (hv : InRange m e (v / 2 ^ e)) (hl : (2 : ℚ) ^ l ≤ v ∨ l = -1074) (hh : v < 2 ^ (l + 1)) :
    max (l - 52) (-1074) = e ∨
      m = 2 ^ 52 ∧ v / 2 ^ e < m ∧ max (l - 52) (-1074) = e - 1 := by
  have hleast := hm.least
  have hlt {k : Int} (hk : v < (2 : ℚ) ^ k) (hke : -1074 < k) : l < k := by
    rcases hl with hl | rfl
    · exact (zpow_lt_zpow_iff_right₀ one_lt_two).mp (hl.trans_lt hk)
    · exact hke
  have hle {k : Int} (hk : (2 : ℚ) ^ k ≤ v) : k < l + 1 :=
    (zpow_lt_zpow_iff_right₀ one_lt_two).mp (hk.trans_lt hh)
  have hbound : (m : ℚ) + 1 ≤ 2 ^ 53 := by exact_mod_cast hm.lt
  have hup : v < 2 ^ ((53 : ℕ) + e) := lt_zpow_of_div_lt (by linarith [hv.high])
  have hupper := hlt hup (by omega)
  rcases Int.lt_or_eq_of_le hleast with hgt | heq
  · rcases le_or_gt ((2 : ℚ) ^ 52) (v / 2 ^ e) with hx | hx
    · -- at or above the power of two: the exponent is that of the double
      have := hle (zpow_le_of_le_div hx)
      omega
    · -- below it: only the range of the power of two itself reaches there
      have hgap := gapBelow_le m e
      have hpow : m = 2 ^ 52 := by
        have hnormal : 2 ^ 52 ≤ m := hm.normal.resolve_right (by omega)
        have : (m : ℚ) < 2 ^ 52 + 1 := by linarith [hv.low]
        have : m < 2 ^ 52 + 1 := by exact_mod_cast this
        omega
      have hmant : (m : ℚ) = 2 ^ 52 := by exact_mod_cast hpow
      have hlow : (2 : ℚ) ^ 51 ≤ v / 2 ^ e := by linarith [hv.low]
      have := hle (zpow_le_of_le_div hlow)
      have := hlt (lt_zpow_of_div_lt hx) (by omega)
      exact .inr ⟨hpow, hmant ▸ hx, by omega⟩
  · omega

theorem shiftToTargetExponent_eq {q : Nat} {t T : Int} {acc : Accuracy} (shift : Nat)
    (hT : Format.binary64.targetExponent (totalExponent q t) = T) (hshift : T = t + shift) :
    shiftToTargetExponent .binary64 q t acc =
      (ExtendedMantissa.ofMantissaAndAccuracy q acc >>> shift, T) := by
  simp only [shiftToTargetExponent, shiftToExponent, hT]
  rw [show (T - t).toNat = shift by omega, hshift]

theorem roundWithAccuracy_of_shifts {q n m : Nat} {t e₁ e : Int} {acc : Accuracy}
    {em₁ em₂ : ExtendedMantissa} (s : Sign) (hpos : 0 < m)
    (h₁ : shiftToTargetExponent .binary64 q t acc = (em₁, e₁)) (hn : em₁.roundedMantissa = n)
    (h₂ : shiftToTargetExponent .binary64 n e₁ .exact = (em₂, e)) (hm : em₂.mantissa = m) :
    roundWithAccuracy .binary64 s q t acc = .finite s m e hpos := by
  subst hn hm
  rw [roundWithAccuracy, h₁]
  dsimp only
  rw [h₂]
  exact dif_neg hpos.ne'

theorem Holds.shiftToTargetExponent {q : Nat} {t T : Int} {acc : Accuracy} {v : ℚ}
    (h : Holds (.ofMantissaAndAccuracy q acc) (v / 2 ^ t)) (ht : t ≤ T)
    (hT : Format.binary64.targetExponent (totalExponent q t) = T) :
    ∃ em, shiftToTargetExponent .binary64 q t acc = (em, T) ∧ Holds em (v / 2 ^ T) := by
  obtain ⟨shift, hshift⟩ := Int.le.dest ht
  refine ⟨_, shiftToTargetExponent_eq shift hT hshift.symm, ?_⟩
  have := h.shiftRight shift
  rwa [div_div, ← zpow_natCast, ← zpow_add₀ two_ne_zero, hshift] at this

/-- Just below a power of two the mantissa has one place more, and rounds up to `2 ^ 53`. -/
theorem Holds.roundedMantissa_carry {em : ExtendedMantissa} {e : Int} {v : ℚ}
    (h : Holds em (v / 2 ^ (e - 1))) (he : -1074 < e) (hv : InRange (2 ^ 52) e (v / 2 ^ e))
    (hbelow : v / 2 ^ e < 2 ^ 52) : em.roundedMantissa = 2 ^ 53 := by
  have htwice : v / 2 ^ (e - 1) = 2 * (v / 2 ^ e) := by
    rw [zpow_sub_one₀ two_ne_zero]
    field_simp
  have hlow := hv.low
  rw [gapBelow, if_pos ⟨rfl, he⟩] at hlow
  rw [htwice] at h
  push_cast at hlow
  exact h.roundedMantissa (by push_cast; linarith) (by push_cast; linarith) (by norm_num)

theorem roundWithAccuracy_eq {m q : Nat} {e t : Int} {acc : Accuracy} {v : ℚ} (s : Sign)
    (hm : Canonical m e) (hq : 0 < q ∨ t = -1074)
    (hholds : Holds (.ofMantissaAndAccuracy q acc) (v / 2 ^ t))
    (ht : t ≤ Format.binary64.targetExponent (totalExponent q t))
    (hv : InRange m e (v / 2 ^ e)) :
    roundWithAccuracy .binary64 s q t acc = .finite s m e hm.pos := by
  obtain ⟨hlow, hh⟩ := hholds.binade
  have hl : (2 : ℚ) ^ ((q.log2 : Int) + t) ≤ v ∨ (q.log2 : Int) + t = -1074 := by
    rcases Nat.eq_zero_or_pos q with rfl | hpos
    · exact .inr (by simpa using hq)
    · exact .inl (hlow hpos)
  have hT : Format.binary64.targetExponent (totalExponent q t) =
      max ((q.log2 : Int) + t - 52) (-1074) := by
    rw [targetExponent_eq, totalExponent]
    omega
  have hleast := hm.least
  rcases hv.targetExponent hm hl hh with hsame | ⟨rfl, hbelow, hless⟩
  · obtain ⟨em, hem, hx⟩ := hholds.shiftToTargetExponent (by omega) (hT.trans hsame)
    have hgap := gapBelow_le m e
    have hround : em.roundedMantissa = m :=
      hx.roundedMantissa (by linarith [hv.low]) hv.high fun hodd =>
        ⟨by linarith [(hv.odd hodd).1], (hv.odd hodd).2⟩
    exact roundWithAccuracy_of_shifts s hm.pos hem hround
      (shiftToTargetExponent_eq 0 hm.targetExponent (by simp)) rfl
  · -- the rounded mantissa is shifted once more
    obtain ⟨em, hem, hx⟩ := hholds.shiftToTargetExponent (by omega) (hT.trans hless)
    have hround : em.roundedMantissa = 2 ^ 53 :=
      hx.roundedMantissa_carry (by omega) hv (by exact_mod_cast hbelow)
    have htarget : Format.binary64.targetExponent (totalExponent (2 ^ 53) (e - 1)) = e := by
      have hlog : (2 ^ 53 : Nat).log2 = 53 := Nat.log2_two_pow
      rw [targetExponent_eq, totalExponent, hlog]
      omega
    exact roundWithAccuracy_of_shifts s hm.pos hem hround
      (shiftToTargetExponent_eq 1 htarget (by ring)) rfl

theorem mul_eq {m m₁ m₂ : Nat} {e e₁ e₂ : Int} {s₁ s₂ : Sign} {h₁ : 0 < m₁} {h₂ : 0 < m₂}
    (hm : Canonical m e) (hbits : 2 ^ 52 ≤ m₁ * m₂)
    (hv : InRange m e ((m₁ : ℚ) * 2 ^ e₁ * (m₂ * 2 ^ e₂) / 2 ^ e)) :
    mul .binary64 (.finite s₁ m₁ e₁ h₁) (.finite s₂ m₂ e₂ h₂) =
      .finite (s₁ * s₂) m e hm.pos := by
  refine roundWithAccuracy_eq _ hm (.inl (Nat.mul_pos h₁ h₂)) ?_ ?_ hv
  · simp only [Holds, ExtendedMantissa.ofMantissaAndAccuracy]
    rw [div_eq_iff (by positivity), zpow_add₀ two_ne_zero]
    push_cast
    ring
  · have : 52 ≤ (m₁ * m₂).log2 := (Nat.le_log2 (Nat.mul_pos h₁ h₂).ne').mpr hbits
    rw [targetExponent_eq, totalExponent]
    omega

theorem divCore_eq {m₁ m₂ : Nat} {e₁ e₂ : Int} (h₁ : 0 < m₁) (h₂ : 0 < m₂)
    (hleast : -1074 ≤ e₁ - e₂) :
    ∃ (shift : Nat) (t : Int), divCore .binary64 m₁ e₁ m₂ e₂ =
        (m₁ * 2 ^ shift / m₂, t, accuracyOfFraction (m₁ * 2 ^ shift % m₂) m₂) ∧
      t = e₁ - e₂ - shift ∧ (2 ^ 52 ≤ m₁ * 2 ^ shift / m₂ ∨ t = -1074) := by
  rw [divCore, targetExponent_eq, totalExponent, totalExponent]
  generalize ht : min (e₁ - e₂) (max _ (-1074)) = t
  refine ⟨(e₁ - e₂ - t).toNat, t, by rw [Nat.shiftLeft_eq], by omega, ?_⟩
  rcases eq_or_ne t (-1074) with heq | hne
  · exact .inr heq
  · left
    have hshift : 53 + m₂.log2 ≤ m₁.log2 + (e₁ - e₂ - t).toNat := by omega
    generalize (e₁ - e₂ - t).toNat = shift at hshift
    rw [Nat.le_div_iff_mul_le h₂]
    calc 2 ^ 52 * m₂
        ≤ 2 ^ 52 * 2 ^ (m₂.log2 + 1) := Nat.mul_le_mul_left _ Nat.lt_log2_self.le
      _ = 2 ^ (53 + m₂.log2) := by rw [← pow_add]; congr 1; omega
      _ ≤ 2 ^ (m₁.log2 + shift) := Nat.pow_le_pow_right (by omega) hshift
      _ = 2 ^ m₁.log2 * 2 ^ shift := pow_add ..
      _ ≤ m₁ * 2 ^ shift := Nat.mul_le_mul_right _ (Nat.log2_self_le h₁.ne')

theorem div_finite {m₁ m₂ : Nat} {e₁ e₂ : Int} {s₁ s₂ : Sign} {h₁ : 0 < m₁} {h₂ : 0 < m₂} :
    div .binary64 (.finite s₁ m₁ e₁ h₁) (.finite s₂ m₂ e₂ h₂) =
      let core := divCore .binary64 m₁ e₁ m₂ e₂
      roundWithAccuracy .binary64 (s₁ / s₂) core.1 core.2.1 core.2.2 := rfl

theorem div_eq {m m₁ m₂ : Nat} {e e₁ e₂ : Int} {s₁ s₂ : Sign} {h₁ : 0 < m₁} {h₂ : 0 < m₂}
    (hm : Canonical m e) (hleast : -1074 ≤ e₁ - e₂)
    (hv : InRange m e ((m₁ : ℚ) * 2 ^ e₁ / (m₂ * 2 ^ e₂) / 2 ^ e)) :
    div .binary64 (.finite s₁ m₁ e₁ h₁) (.finite s₂ m₂ e₂ h₂) =
      .finite (s₁ / s₂) m e hm.pos := by
  obtain ⟨shift, t, hcore, ht, hq⟩ := divCore_eq h₁ h₂ hleast
  rw [div_finite, hcore]
  dsimp only
  refine roundWithAccuracy_eq _ hm (hq.imp_left fun h => by omega) ?_ ?_ hv
  · have hholds := holds_fraction (m₁ * 2 ^ shift) h₂
    push_cast at hholds
    convert hholds using 1
    have hsplit : (2 : ℚ) ^ e₁ = 2 ^ e₂ * 2 ^ t * 2 ^ shift := by
      rw [← zpow_natCast, ← zpow_add₀ two_ne_zero, ← zpow_add₀ two_ne_zero]
      congr 1
      omega
    rw [hsplit]
    field_simp
  · rw [targetExponent_eq, totalExponent]
    rcases hq with hq | hq
    · have : 52 ≤ (m₁ * 2 ^ shift / m₂).log2 := (Nat.le_log2 (by omega)).mpr hq
      omega
    · omega

end Rounding

end InfixArithmetic

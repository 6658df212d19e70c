import InfixArithmetic.Binary64

/-!
The decimal that writes `significand · 2 ^ exponent` with the fewest digits: of the powers of ten
that have a multiple within the numbers rounding to that value, the greatest, and of its multiples
the nearest.  Everything is scaled to natural numbers first.
-/

namespace InfixArithmetic

/-- The number `digits · 10 ^ exponent`. -/
structure Decimal where
  digits : Nat
  exponent : Int
  deriving DecidableEq

namespace Decimal

/-- The numbers from `low` to `high`, with both ends or without. -/
structure Span where
  low : Nat
  high : Nat
  closed : Bool

def Span.contains (s : Span) (n : Nat) : Bool :=
  if s.closed then s.low ≤ n && n ≤ s.high else s.low < n && n < s.high

/-- The multiple of `step` in the span nearest to `value`, the greater of two as near. -/
def nearest? (s : Span) (value step : Nat) : Option Nat :=
  let below := value / step
  match s.contains (below * step), s.contains ((below + 1) * step) with
  | true, true =>
      some (if value - below * step < (below + 1) * step - value then below else below + 1)
  | true, false => some below
  | false, true => some (below + 1)
  | false, false => none

theorem contains_of_nearest? {s : Span} {value step n : Nat}
    (h : nearest? s value step = some n) : s.contains (n * step) = true := by
  simp only [nearest?] at h
  split at h
  · rename_i hb ha
    split at h <;> simp only [Option.some.injEq] at h <;> subst h
    · exact hb
    · exact ha
  · rename_i hb _
    simp only [Option.some.injEq] at h
    subst h
    exact hb
  · rename_i _ ha
    simp only [Option.some.injEq] at h
    subst h
    exact ha
  · simp at h

/-- Tries the powers of ten downwards; `value` itself is a multiple of the last. -/
def coarsest (s : Span) (value : Nat) : Nat → Nat × Nat
  | 0 => (value, 0)
  | k + 1 =>
      match nearest? s value (Nat.pow 10 (k + 1)) with
      | some n => (n, k + 1)
      | none => coarsest s value k

theorem contains_coarsest {s : Span} {value : Nat} (h : s.contains value = true) (k : Nat) :
    s.contains ((coarsest s value k).1 * Nat.pow 10 (coarsest s value k).2) = true := by
  induction k with
  | zero => simpa [coarsest] using h
  | succ k ih =>
      rw [coarsest]
      split
      · rename_i n hn
        exact contains_of_nearest? hn
      · exact ih

/-- How often ten has to divide a quarter of the unit in the last place to make it whole. -/
def scale (exponent : Int) : Nat :=
  (2 - exponent).toNat

/-- A quarter of the unit in the last place, times `10 ^ scale exponent`. -/
def quarter (exponent : Int) : Nat :=
  if 2 ≤ exponent then Nat.pow 2 (exponent - 2).toNat else Nat.pow 5 (2 - exponent).toNat

theorem quarter_pos (exponent : Int) : 0 < quarter exponent := by
  rw [quarter]
  split <;> exact Nat.pow_pos (by omega)

/-- The numbers that round to `4 * significand` quarters.  The gap below a power of two is half as
wide, except below the least one, and an even significand takes both ends. -/
def rounding (significand : Nat) (exponent : Int) : Span where
  low :=
    (4 * significand - if significand = Nat.pow 2 52 ∧ -1074 < exponent then 1 else 2) *
      quarter exponent
  high := (4 * significand + 2) * quarter exponent
  closed := significand % 2 = 0

theorem contains_rounding {significand : Nat} (exponent : Int) (h : 0 < significand) :
    (rounding significand exponent).contains (4 * significand * quarter exponent) = true := by
  have hq := quarter_pos exponent
  have hl : (rounding significand exponent).low < 4 * significand * quarter exponent := by
    simp only [rounding]
    refine Nat.mul_lt_mul_of_pos_right ?_ hq
    split <;> omega
  have hh : 4 * significand * quarter exponent < (rounding significand exponent).high := by
    simp only [rounding]
    exact Nat.mul_lt_mul_of_pos_right (by omega) hq
  rw [Span.contains]
  split <;> simp <;> omega

def shortest (significand : Nat) (exponent : Int) : Decimal :=
  let s := rounding significand exponent
  let (digits, k) :=
    coarsest s (4 * significand * quarter exponent) (Nat.toDigits 10 s.high).length
  ⟨digits, k - scale exponent⟩

end Decimal

end InfixArithmetic

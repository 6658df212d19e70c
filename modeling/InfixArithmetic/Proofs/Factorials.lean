import InfixArithmetic.Operator
import InfixArithmetic.Proofs.WholeDoubles

/-!
Factorials of doubles.  The loop that multiplies a product by one factor after another counts in
doubles (`Multiplying`).  It ends for every whole operand (`Multiplying.runs`), since the product is
infinite long before the count reaches the whole numbers that doubles leave out.
-/

namespace InfixArithmetic

open Rounding (Stands)

def roundedProduct : Nat → Float
  | 0 | 1 => 1.0
  | n + 2 => roundedProduct (n + 1) * Float.ofNat (n + 2)

/-- Whether `count` factors from `factor` on make the product infinite, the last of them only, and
none of them makes it less. -/
def growsToInfinity : Nat → Nat → Float → Bool
  | 0, _, product => decide (product = 1.0 / 0.0)
  | count + 1, factor, product =>
      product.isFinite && decide (product ≤ product * Float.ofNat factor) &&
        growsToInfinity count (factor + 1) (product * Float.ofNat factor)

theorem growsToInfinity_one : growsToInfinity 170 2 1.0 = true := by
  decide +kernel

theorem roundedProduct_of_growsToInfinity {count k : Nat}
    (h : growsToInfinity count (k + 2) (roundedProduct (k + 1)) = true) :
    (∀ n, k < n → n ≤ k + count →
      (roundedProduct n).isFinite = true ∧ roundedProduct n ≤ roundedProduct (n + 1)) ∧
    roundedProduct (k + count + 1) = 1.0 / 0.0 := by
  induction count generalizing k with
  | zero =>
      rw [growsToInfinity, decide_eq_true_iff] at h
      exact ⟨fun n hlow hhigh => by omega, h⟩
  | succ count ih =>
      simp only [growsToInfinity, Bool.and_eq_true, decide_eq_true_iff] at h
      obtain ⟨⟨hfinite, hgrows⟩, hrest⟩ := h
      obtain ⟨hbelow, hlast⟩ := ih (k := k + 1) hrest
      refine ⟨fun n hlow hhigh => ?_, by rwa [Nat.add_right_comm k 1] at hlast⟩
      rcases Nat.eq_or_lt_of_le hlow with rfl | hlt
      · exact ⟨hfinite, hgrows⟩
      · exact hbelow n hlt (by omega)

theorem roundedProduct_growth :
    (∀ n, 0 < n → n ≤ 170 →
      (roundedProduct n).isFinite = true ∧ roundedProduct n ≤ roundedProduct (n + 1)) ∧
    roundedProduct 171 = 1.0 / 0.0 := by
  have h := roundedProduct_of_growsToInfinity (k := 0) growsToInfinity_one
  rwa [Nat.zero_add] at h

theorem roundedProduct_infinite : roundedProduct 171 = 1.0 / 0.0 :=
  roundedProduct_growth.2

theorem isFinite_roundedProduct {n : Nat} (h : n ≤ 170) : (roundedProduct n).isFinite = true := by
  rcases Nat.eq_zero_or_pos n with rfl | hpos
  · rfl
  · exact (roundedProduct_growth.1 n hpos h).1

theorem isFinite_roundedProduct_iff {n : Nat} (h : n ≤ 171) :
    (roundedProduct n).isFinite = true ↔ n ≤ 170 := by
  refine ⟨fun hfinite => ?_, isFinite_roundedProduct⟩
  rcases Nat.eq_or_lt_of_le h with rfl | hlt
  · rw [roundedProduct_infinite] at hfinite
    exact absurd hfinite (by decide)
  · exact Nat.le_of_lt_succ hlt

theorem roundedProduct_le_succ {n : Nat} (h : n ≤ 170) :
    roundedProduct n ≤ roundedProduct (n + 1) := by
  rcases Nat.eq_zero_or_pos n with rfl | hpos
  · exact of_decide_eq_true rfl
  · exact (roundedProduct_growth.1 n hpos h).2

theorem exists_stands_roundedProduct {n : Nat} (h : n ≤ 170) :
    ∃ p, Stands (roundedProduct n) p :=
  Rounding.isFinite_iff.mp (isFinite_roundedProduct h)

theorem roundedProduct_mono {m n : Nat} (hmn : m ≤ n) (hn : n ≤ 171) :
    roundedProduct m ≤ roundedProduct n := by
  induction n, hmn using Nat.le_induction with
  | base =>
      rcases Nat.eq_or_lt_of_le hn with rfl | hlt
      · rw [roundedProduct_infinite]
        exact of_decide_eq_true rfl
      · obtain ⟨p, hp⟩ := exists_stands_roundedProduct (Nat.le_of_lt_succ hlt)
        exact (hp.le_iff hp).mpr le_rfl
  | succ n hmn ih =>
      obtain ⟨p, hp⟩ := exists_stands_roundedProduct (n := m) (by omega)
      rcases Nat.eq_or_lt_of_le hn with heq | hlt
      · rw [heq, roundedProduct_infinite]
        exact hp.le_infinity
      · obtain ⟨q, hq⟩ := exists_stands_roundedProduct (n := n) (by omega)
        obtain ⟨r, hr⟩ := exists_stands_roundedProduct (n := n + 1) (by omega)
        have hrest := (hp.le_iff hq).mp (ih (by omega))
        have hstep := (hq.le_iff hr).mp (roundedProduct_le_succ (by omega))
        exact (hp.le_iff hr).mpr (hrest.trans hstep)

theorem capped_eq_infinity_iff {n : Nat} : roundedProduct (min n 171) = 1.0 / 0.0 ↔ 171 ≤ n := by
  constructor
  · intro h
    rw [← roundedProduct_infinite] at h
    have hfinite := isFinite_roundedProduct_iff (Nat.min_le_right n 171)
    rw [h, isFinite_roundedProduct_iff le_rfl] at hfinite
    omega
  · intro h
    rw [Nat.min_eq_right h, roundedProduct_infinite]

theorem isNaN_roundedProduct {n : Nat} (h : n ≤ 171) : (roundedProduct n).isNaN = false := by
  rcases Nat.eq_or_lt_of_le h with rfl | hlt
  · rw [roundedProduct_infinite]
    rfl
  · exact Rounding.isNaN_of_isFinite (isFinite_roundedProduct (Nat.le_of_lt_succ hlt))

theorem multiplyOn_roundedProduct (count : Nat) {k : Nat} (hk : k ≤ 170) :
    multiplyOn count (k + 2) (roundedProduct (k + 1)) =
      roundedProduct (min (k + 1 + count) 171) := by
  induction count generalizing k with
  | zero => rw [multiplyOn, Nat.min_eq_left (by omega), Nat.add_zero]
  | succ count ih =>
      rcases Nat.eq_or_lt_of_le hk with rfl | hlt
      · rw [roundedProduct_infinite, multiplyOn_of_infinite rfl, Nat.min_eq_right (by omega),
          roundedProduct_infinite]
      · rw [multiplyOn, if_pos (isFinite_roundedProduct (by omega)),
          show k + 1 + (count + 1) = k + 1 + 1 + count by omega]
        exact ih (k := k + 1) hlt

/-- The factorials stop growing at that of `171`, which is infinite. -/
theorem factorial_eq (n : Nat) : factorial n = roundedProduct (min n 171) := by
  have h := multiplyOn_roundedProduct (n - 1) (k := 0) (by omega)
  cases n with
  | zero => rfl
  | succ n => rwa [Nat.add_sub_cancel, Nat.zero_add, Nat.add_comm 1] at h

structure Multiplying where
  product : Float
  factor : Float

namespace Multiplying

variable {x : Float} {n : Nat}

def start : Multiplying :=
  ⟨1.0, 2.0⟩

def GoesOn (x : Float) (s : Multiplying) : Prop :=
  s.factor ≤ x ∧ s.product.isFinite = true

def next (s : Multiplying) : Multiplying :=
  ⟨s.product * s.factor, s.factor + 1.0⟩

/-- The loop with the operand `x` goes so many rounds from one state to another and ends there. -/
inductive Runs (x : Float) : Nat → Multiplying → Multiplying → Prop
  | ends {s : Multiplying} (h : ¬ s.GoesOn x) : Runs x 0 s s
  | round {rounds : Nat} {s t : Multiplying} (h : s.GoesOn x) (rest : Runs x rounds s.next t) :
      Runs x (rounds + 1) s t

def after (rounds : Nat) : Multiplying :=
  ⟨roundedProduct (rounds + 1), Float.ofNat (rounds + 2)⟩

theorem after_zero : after 0 = start := by
  have htwo : Float.ofNat 2 = 2.0 := by decide
  exact congrArg (Multiplying.mk 1.0) htwo

theorem next_after {rounds : Nat} (h : rounds ≤ 170) :
    (after rounds).next = after (rounds + 1) := by
  have hone : Float.ofNat 1 = 1.0 := by decide
  have hfactor := Rounding.ofNat_add (a := rounds + 2) (b := 1) (by omega) (by omega) (by omega)
  rw [hone] at hfactor
  exact congrArg (Multiplying.mk (roundedProduct (rounds + 2))) hfactor

theorem goesOn_after (hx : Stands x n) {rounds : Nat} (h : rounds ≤ 170) :
    (after rounds).GoesOn x ↔ rounds + 2 ≤ n ∧ rounds < 170 := by
  have hfactor := Rounding.stands_ofNat (n := rounds + 2) (by omega) (by omega)
  have hfinite := isFinite_roundedProduct_iff (Nat.succ_le_succ h)
  change Float.ofNat (rounds + 2) ≤ x ∧ (roundedProduct (rounds + 1)).isFinite = true ↔ _
  rw [hfactor.le_iff hx, hfinite, Nat.succ_le_iff]
  norm_cast

/-- One round less is left after every round. -/
theorem runs_after (hx : Stands x n) {left rounds : Nat} (h : rounds + left = min n 171 - 1) :
    Runs x left (after rounds) (after (min n 171 - 1)) := by
  induction left generalizing rounds with
  | zero =>
      rw [← h]
      exact .ends fun hgoes => by
        have := (goesOn_after hx (by omega)).mp hgoes
        omega
  | succ left ih =>
      have hgoes : (after rounds).GoesOn x := (goesOn_after hx (by omega)).mpr (by omega)
      refine .round hgoes ?_
      rw [next_after (by omega)]
      exact ih (by omega)

theorem Runs.unique {m k : Nat} {s t u : Multiplying} (h : Runs x m s t) (h' : Runs x k s u) :
    m = k ∧ t = u := by
  induction h generalizing k with
  | ends hs =>
      cases h' with
      | ends => exact ⟨rfl, rfl⟩
      | round hgoes => exact absurd hgoes hs
  | round hs _ ih =>
      cases h' with
      | ends hends => exact absurd hs hends
      | round _ rest => exact (ih rest).imp_left (congrArg (· + 1))

theorem runs (hx : Stands x n) : Runs x (min n 171 - 1) start (after (min n 171 - 1)) := by
  rw [← after_zero]
  exact runs_after hx (Nat.zero_add _)

theorem after_product : (after (min n 171 - 1)).product = roundedProduct (min n 171) := by
  cases n with
  | zero => rfl
  | succ n => rw [after, Nat.sub_add_cancel (by omega)]

end Multiplying

theorem factorialOf_eq_ok {x y : Float} :
    factorialOf x = .ok y ↔ ∃ n : Nat, Stands x n ∧ roundedProduct (min n 171) = y := by
  have hzero : Stands 0.0 0 := .zero .positive
  constructor
  · intro h
    unfold factorialOf at h
    split at h
    · exact absurd h nofun
    · rename_i hnonneg
      rw [requireWhole_eq _ hnonneg] at h
      cases hn : (Binary64.ofFloat x).natural? with
      | none => simp [hn, Except.map] at h
      | some n =>
          simp only [hn, Except.map, Except.ok.injEq] at h
          exact ⟨n, Rounding.natural?_ofFloat.mp hn, (factorial_eq n).symm.trans h⟩
  · rintro ⟨n, hn, rfl⟩
    have hnonneg : ¬ x < 0.0 := by
      rw [hn.lt_iff hzero]
      exact not_lt.mpr (Nat.cast_nonneg n)
    rw [← factorial_eq, factorialOf, if_neg hnonneg, requireWhole_eq _ hnonneg,
      Rounding.natural?_ofFloat.mpr hn]
    rfl

theorem factorials_of_doubles (x : Float) :
    ((∃ y, UnaryOperator.factorial.apply x = .ok y) ↔
      x.isFinite = true ∧ (∃ z : Int, (Binary64.ofFloat x).value? = some (z : ℚ)) ∧ ¬ x < 0.0) ∧
    ∀ y, UnaryOperator.factorial.apply x = .ok y →
      (∃ rounds last, Multiplying.Runs x rounds .start last) ∧
      (∀ rounds last, Multiplying.Runs x rounds .start last → rounds ≤ 170 ∧ last.product = y) ∧
      (∃ n : Nat, (Binary64.ofFloat x).value? = some (n : ℚ) ∧ y = roundedProduct (min n 171) ∧
        (y = 1.0 / 0.0 ↔ 171 ≤ n)) ∧
      (∀ x' y', UnaryOperator.factorial.apply x' = .ok y' → x ≤ x' → y ≤ y') ∧
      y.isNaN = false := by
  simp only [UnaryOperator.apply, factorialOf_eq_ok]
  refine ⟨?_, ?_⟩
  · rw [← Rounding.stands_natural_iff]
    exact ⟨fun ⟨_, n, hn, _⟩ => ⟨n, hn⟩, fun ⟨n, hn⟩ => ⟨_, n, hn, rfl⟩⟩
  · rintro y ⟨n, hn, rfl⟩
    have hruns := Multiplying.runs hn
    refine ⟨⟨_, _, hruns⟩, ?_, ⟨n, hn.value?, rfl, capped_eq_infinity_iff⟩, ?_,
      isNaN_roundedProduct (Nat.min_le_right ..)⟩
    · intro rounds last h
      obtain ⟨rfl, rfl⟩ := h.unique hruns
      exact ⟨by omega, Multiplying.after_product⟩
    · rintro x' _ ⟨n', hn', rfl⟩ hle
      have hnn : n ≤ n' := by exact_mod_cast (hn.le_iff hn').mp hle
      exact roundedProduct_mono (min_le_min_right _ hnn) (Nat.min_le_right ..)

example : factorialOf (-0.0) = .ok 1.0 := by
  rfl

end InfixArithmetic

/-!
Factorials as doubles.
-/

namespace InfixArithmetic

/-- Multiplies a product by `count` factors from `factor` on, and stops once it is infinite. -/
def multiplyOn : Nat → Nat → Float → Float
  | 0, _, product => product
  | count + 1, factor, product =>
      if product.isFinite then multiplyOn count (factor + 1) (product * Float.ofNat factor)
      else product

theorem multiplyOn_of_infinite {product : Float} (h : product.isFinite = false)
    (count factor : Nat) : multiplyOn count factor product = product := by
  cases count with
  | zero => rfl
  | succ count => simp [multiplyOn, h]

/-- The product of the factors from two to `n`, rounded after each. -/
def factorial (n : Nat) : Float :=
  multiplyOn (n - 1) 2 1.0

end InfixArithmetic

/-!
What a double stands for: no number, an infinity, or an exact value `± significand · 2 ^ exponent`.
-/

namespace InfixArithmetic

open Float.Model (UnpackedFloat)

inductive Binary64 where
  | notANumber
  | infinite (negative : Bool)
  | finite (negative : Bool) (significand : Nat) (exponent : Int)
  deriving DecidableEq

namespace Binary64

def isNegative : UnpackedFloat.Sign → Bool
  | .negative => true
  | .positive => false

def ofFloat (x : Float) : Binary64 :=
  match x.toModel.unpack with
  | .notANumber => .notANumber
  | .infinity sign => .infinite (isNegative sign)
  | .zero sign => .finite (isNegative sign) 0 0
  | .finite sign significand exponent _ => .finite (isNegative sign) significand exponent

/-- The value of `significand · 2 ^ exponent`, if it is whole. -/
def whole? (significand : Nat) : Int → Option Nat
  | .ofNat k => some (significand * Nat.pow 2 k)
  | .negSucc k =>
      if significand % Nat.pow 2 (k + 1) = 0 then some (significand / Nat.pow 2 (k + 1)) else none

/-- The natural number that a double equals; both zeros equal `0`. -/
def natural? : Binary64 → Option Nat
  | .finite negative significand exponent =>
      if negative && significand != 0 then none else whole? significand exponent
  | _ => none

/-- The whole number next towards zero, without its sign. -/
def wholePart : Binary64 → Nat
  | .finite _ significand (.ofNat k) => significand * Nat.pow 2 k
  | .finite _ significand (.negSucc k) => significand / Nat.pow 2 (k + 1)
  | _ => 0

end Binary64

/-- The whole number next towards zero; an infinity stays as it is. -/
def truncate (x : Float) : Float :=
  match Binary64.ofFloat x with
  | .finite negative significand (.negSucc k) =>
      let whole := Float.ofNat (Binary64.finite negative significand (.negSucc k)).wholePart
      if negative then -whole else whole
  | _ => x

/-- No number for an infinity. -/
def fractionalPart (x : Float) : Float :=
  x - truncate x

end InfixArithmetic

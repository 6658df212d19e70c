import InfixArithmetic.Decimal.Shortest

/-!
The text of a double: the digits of its shortest decimal in positional form, never with an exponent,
and without a point when it is whole.
-/

namespace InfixArithmetic

namespace Decimal

def digitsOf (n : Nat) : List Char :=
  Nat.toDigits 10 n

def padded (width n : Nat) : List Char :=
  List.replicate (width - (digitsOf n).length) '0' ++ digitsOf n

def positional (d : Decimal) : List Char :=
  match d.exponent with
  | .ofNat k => digitsOf (d.digits * Nat.pow 10 k)
  | .negSucc k =>
      let places := k + 1
      digitsOf (d.digits / Nat.pow 10 places) ++
        '.' :: padded places (d.digits % Nat.pow 10 places)

def signed (negative : Bool) (digits : List Char) : List Char :=
  if negative then '-' :: digits else digits

def magnitude (significand : Nat) (exponent : Int) : List Char :=
  if significand = 0 then ['0'] else (shortest significand exponent).positional

def text (x : Float) : String :=
  match Binary64.ofFloat x with
  | .notANumber => "NaN"
  | .infinite negative => String.ofList (signed negative ['i', 'n', 'f'])
  | .finite negative significand exponent =>
      String.ofList (signed negative (magnitude significand exponent))

end Decimal

end InfixArithmetic

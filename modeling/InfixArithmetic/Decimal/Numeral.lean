import InfixArithmetic.Binary64

/-!
Number words: a sign, digits with at most one point, and a power of ten, all but one digit optional.
The value is the nearest double, and a word whose nearest double is infinite is no number.
-/

namespace InfixArithmetic

/-- The number `± significand · 10 ^ exponent`. -/
structure Numeral where
  negative : Bool
  significand : Nat
  exponent : Int
  deriving DecidableEq

namespace Numeral

def digitValue (c : Char) : Nat :=
  c.toNat - '0'.toNat

def ofDigits (ds : List Char) : Nat :=
  ds.foldl (fun n d => 10 * n + digitValue d) 0

def takeSign : List Char → Bool × List Char
  | [] => (false, [])
  | c :: rest =>
      if c = '-' then (true, rest)
      else if c = '+' then (false, rest)
      else (false, c :: rest)

def takeFraction : List Char → List Char × List Char
  | [] => ([], [])
  | c :: rest =>
      if c = '.' then (rest.takeWhile Char.isDigit, rest.dropWhile Char.isDigit)
      else ([], c :: rest)

/-- A power takes no digits beyond the one that brings it to `65536` or more. -/
def powerOfDigits (ds : List Char) : Int :=
  ds.foldl (fun n d => if n < 65536 then 10 * n + digitValue d else n) (0 : Nat)

def power? : List Char → Option Int
  | [] => some 0
  | c :: rest =>
      if c = 'e' ∨ c = 'E' then
        let (negative, digits) := takeSign rest
        if digits ≠ [] ∧ digits.all Char.isDigit then
          some (if negative then -powerOfDigits digits else powerOfDigits digits)
        else none
      else none

def ofList? (word : List Char) : Option Numeral :=
  let (negative, unsigned) := takeSign word
  let whole := unsigned.takeWhile Char.isDigit
  let (fraction, rest) := takeFraction (unsigned.dropWhile Char.isDigit)
  if whole = [] ∧ fraction = [] then none
  else
    (power? rest).map fun power =>
      ⟨negative, ofDigits (whole ++ fraction), power - fraction.length⟩

def toFloat (n : Numeral) : Float :=
  let magnitude := Float.ofScientific n.significand (n.exponent < 0) n.exponent.natAbs
  if n.negative then -magnitude else magnitude

end Numeral

/-- The finite double that a number word stands for. -/
def readNumber? (word : String) : Option Float :=
  (Numeral.ofList? word.toList).bind fun n =>
    if n.toFloat.isFinite then some n.toFloat else none

end InfixArithmetic

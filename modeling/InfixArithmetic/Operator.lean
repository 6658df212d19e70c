import InfixArithmetic.Arithmetic.Factorial
import InfixArithmetic.Arithmetic.Fibonacci
import InfixArithmetic.Failure

/-!
The operators on doubles.  Trigonometric operators take degrees, division by zero gives an infinity
or no number, and only factorials and Fibonacci numbers refuse an operand.
-/

namespace InfixArithmetic

inductive BinaryOperator where
  | add
  | subtract
  | multiply
  | divide
  | exponentiate
  deriving DecidableEq

inductive UnaryOperator where
  | square
  | factorial
  | sine
  | cosine
  | tangent
  | fibonacci
  | negate
  | identity
  deriving DecidableEq

def BinaryOperator.symbol : BinaryOperator → String
  | .add => "+"
  | .subtract => "-"
  | .multiply => "*"
  | .divide => "/"
  | .exponentiate => "^"

def BinaryOperator.apply : BinaryOperator → Float → Float → Float
  | .add, x, y => x + y
  | .subtract, x, y => x - y
  | .multiply, x, y => x * y
  | .divide, x, y => x / y
  | .exponentiate, x, y => x.pow y

def UnaryOperator.symbol : UnaryOperator → String
  | .square => "**"
  | .factorial => "!"
  | .sine => "sin"
  | .cosine => "cos"
  | .tangent => "tan"
  | .fibonacci => "fib"
  | .negate => "-"
  | .identity => "+"

def UnaryOperator.leads : UnaryOperator → Bool
  | .square | .factorial => false
  | .sine | .cosine | .tangent | .fibonacci | .negate | .identity => true

def pi : Float := 3.141592653589793

def radians (degrees : Float) : Float :=
  degrees * pi / 180.0

def fibonacciLimit : Nat := 30

def requireWhole (function : WholeFunction) (x : Float) : Except ArithmeticError Nat :=
  if fractionalPart x != 0.0 then .error (.notWhole function x)
  else .ok (Binary64.ofFloat x).wholePart

def factorialOf (x : Float) : Except ArithmeticError Float :=
  if x < 0.0 then .error (.negativeFactorial x) else (requireWhole .factorial x).map factorial

def fibonacciOf (x : Float) : Except ArithmeticError Float :=
  if x < 0.0 then .error (.negativeFibonacci x)
  else if Float.ofNat fibonacciLimit ≤ x then .error (.fibonacciTooLarge x fibonacciLimit)
  else (requireWhole .fibonacci x).map fun n => Float.ofNat (fibonacci n)

def UnaryOperator.apply : UnaryOperator → Float → Except ArithmeticError Float
  | .square, x => .ok (x * x)
  | .factorial, x => factorialOf x
  | .sine, x => .ok (radians x).sin
  | .cosine, x => .ok (radians x).cos
  | .tangent, x => .ok (radians x).tan
  | .fibonacci, x => fibonacciOf x
  | .negate, x => .ok (-x)
  | .identity, x => .ok x

end InfixArithmetic

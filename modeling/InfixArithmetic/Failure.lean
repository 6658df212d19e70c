import InfixArithmetic.Decimal.Positional

/-!
Why a text has no value: its words are no expression, an operation has no result, or the mode is
unknown.  Each cause has one message.
-/

namespace InfixArithmetic

inductive SyntaxError where
  | unknownOperation (word : String)
  | unknownLeadingOperation (word : String)
  | invalidExpression (word : String)
  | unexpectedEnd
  | unmatchedParentheses
  | nestingTooDeep (limit : Nat)
  deriving DecidableEq

inductive WholeFunction where
  | factorial
  | fibonacci
  deriving DecidableEq

inductive ArithmeticError where
  | invalidNumber (word : String)
  | negativeFactorial (x : Float)
  | negativeFibonacci (x : Float)
  | fibonacciTooLarge (x : Float) (limit : Nat)
  | notWhole (function : WholeFunction) (x : Float)
  | stackUnderflow
  | unconsumedOperands (count : Nat)
  deriving DecidableEq

inductive Failure where
  | parsing (cause : SyntaxError)
  | evaluating (cause : ArithmeticError)
  | unknownMode (name : String)
  deriving DecidableEq

def SyntaxError.message : SyntaxError → String
  | .unknownOperation word => "Unknown operation: " ++ word
  | .unknownLeadingOperation word => "Unknown prefix operation: " ++ word
  | .invalidExpression word =>
      "Invalid expression: expected an operation but found '" ++ word ++ "'"
  | .unexpectedEnd => "Unexpected end of expression"
  | .unmatchedParentheses => "Unmatched parentheses"
  | .nestingTooDeep limit =>
      "Expression is nested more than " ++ toString limit ++ " levels deep"

def WholeFunction.name : WholeFunction → String
  | .factorial => "factorial"
  | .fibonacci => "fibonacci"

def ArithmeticError.message : ArithmeticError → String
  | .invalidNumber word => "Invalid number: " ++ word
  | .negativeFactorial x =>
      "Factorial is not defined for negative numbers: " ++ Decimal.text x
  | .negativeFibonacci x => "Fibonacci argument must not be negative: " ++ Decimal.text x
  | .fibonacciTooLarge x limit =>
      "Fibonacci argument must be less than " ++ toString limit ++ ": " ++ Decimal.text x
  | .notWhole function x =>
      function.name ++ " requires an integer argument, got " ++ Decimal.text x
  | .stackUnderflow => "Stack underflow"
  | .unconsumedOperands count =>
      toString count ++ " operands were left unconsumed on the stack"

def Failure.message : Failure → String
  | .parsing cause => cause.message
  | .evaluating cause => cause.message
  | .unknownMode name => "Unknown parser mode: " ++ name

end InfixArithmetic

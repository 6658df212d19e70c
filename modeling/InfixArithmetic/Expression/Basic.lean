import InfixArithmetic.Program

/-!
Expressions: values as they were written, doubles, operators over their operands, and postfix
programs.
-/

namespace InfixArithmetic

inductive Expression (W : Type := Wrap) (J : Type := BinaryOperator) where
  | value (text : String)
  | literal (x : Float)
  | binary (f : BinaryOperator) (left right : Expression W J)
  | unary (f : UnaryOperator) (operand : Expression W J)
  | program (p : Program W J)
  deriving DecidableEq

namespace Expression

variable {W J : Type}

def isValue : Expression W J → Bool
  | .value _ | .literal _ => true
  | .binary _ _ _ | .unary _ _ | .program _ => false

def alike : Expression W J → Expression W J → Bool
  | .value s, .value t => s = t
  | .literal x, .literal y => x == y
  | .binary f a b, .binary g c d => f = g && a.alike c && b.alike d
  | .unary f a, .unary g b => f = g && a.alike b
  | .program p, .program q => p.alike q
  | _, _ => false

def evaluate : Expression → Except ArithmeticError Float
  | .value text => numberOf text
  | .literal x => .ok x
  | .binary f left right => do
      let x ← left.evaluate
      let y ← right.evaluate
      return f.apply x y
  | .unary f operand => do
      let x ← operand.evaluate
      f.apply x
  | .program p => p.evaluate

end Expression

/-- What operations make of their operands, an expression of whatever kind. -/
class Builds (W J : Type) where
  wrap : W → Expression W J → Expression W J
  join : J → Expression W J → Expression W J → Expression W J

def Wrap.build : Wrap → Expression → Expression
  | .operator f, e => .unary f e
  | .group, e => e

instance : Builds Wrap BinaryOperator where
  wrap := Wrap.build
  join := .binary

@[simp]
theorem Builds.wrap_eq : (Builds.wrap : Wrap → Expression → Expression) = Wrap.build := rfl

@[simp]
theorem Builds.join_eq :
    (Builds.join : BinaryOperator → Expression → Expression → Expression) = .binary := rfl

theorem Wrap.evaluate_build (wrap : Wrap) (e : Expression) :
    (wrap.build e).evaluate = e.evaluate.bind wrap.apply := by
  cases wrap with
  | operator f => rfl
  | group => cases h : e.evaluate <;> simp [build, h, Except.bind, apply]

end InfixArithmetic

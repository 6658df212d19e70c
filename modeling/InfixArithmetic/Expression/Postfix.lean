import InfixArithmetic.Expression.Basic
import InfixArithmetic.Grammar

/-!
The postfix program of an expression, its operators looked up by their symbols in a grammar.
-/

namespace InfixArithmetic

variable {W J : Type}

namespace Grammar

def binaryInstruction (g : Grammar W J) (f : BinaryOperator) :
    Except SyntaxError (Instruction W J) :=
  (g.getTrailing f.symbol).map (.operation ∘ .trailing)

def unaryInstruction (g : Grammar W J) (f : UnaryOperator) :
    Except SyntaxError (Instruction W J) :=
  if f.leads then (g.getLeading f.symbol).map (.operation ∘ .leading)
  else (g.getTrailing f.symbol).map (.operation ∘ .trailing)

end Grammar

/-- Fails with the first operator, in postfix order, that the grammar lacks. -/
def Expression.toProgram (g : Grammar W J) : Expression W J → Except SyntaxError (Program W J)
  | .value text => .ok [.value text]
  | .literal x => .ok [.literal x]
  | .binary f left right => do
      let p ← left.toProgram g
      let q ← right.toProgram g
      let op ← g.binaryInstruction f
      return p ++ q ++ [op]
  | .unary f operand => do
      let p ← operand.toProgram g
      let op ← g.unaryInstruction f
      return p ++ [op]
  | .program p => .ok p

end InfixArithmetic

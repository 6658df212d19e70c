import InfixArithmetic.Decimal.Numeral
import InfixArithmetic.Operation

/-!
Postfix programs, run on a stack of operands with the latest on top.
-/

namespace InfixArithmetic

inductive Instruction (W : Type := Wrap) (J : Type := BinaryOperator) where
  | value (text : String)
  | literal (x : Float)
  | operation (op : Operation W J)
  deriving DecidableEq

abbrev Program (W : Type := Wrap) (J : Type := BinaryOperator) := List (Instruction W J)

variable {W J : Type}

def numberOf (word : String) : Except ArithmeticError Float :=
  match readNumber? word with
  | some x => .ok x
  | none => .error (.invalidNumber word)

def Wrap.run (wrap : Wrap) : List Float → Except ArithmeticError (List Float)
  | x :: stack => (wrap.apply x).map (· :: stack)
  | [] => .error .stackUnderflow

def BinaryOperator.run (f : BinaryOperator) : List Float → Except ArithmeticError (List Float)
  | right :: left :: stack => .ok (f.apply left right :: stack)
  | _ => .error .stackUnderflow

def Operation.run : Operation → List Float → Except ArithmeticError (List Float)
  | .leading op => op.wrap.run
  | .trailing op =>
      match op.form with
      | .behind wrap => wrap.run
      | .between _ f => f.run

namespace Instruction

def run : Instruction → List Float → Except ArithmeticError (List Float)
  | .value text, stack => (numberOf text).map (· :: stack)
  | .literal x, stack => .ok (x :: stack)
  | .operation op, stack => op.run stack

def text : Instruction W J → String
  | .value text => text
  | .literal x => Decimal.text x
  | .operation op => op.name

/-- Literals are alike as doubles compare, operations whatever they build. -/
def alike : Instruction W J → Instruction W J → Bool
  | .value s, .value t => s = t
  | .literal x, .literal y => x == y
  | .operation p, .operation q => p.alike q
  | _, _ => false

end Instruction

namespace Program

def run : Program → List Float → Except ArithmeticError (List Float)
  | [], stack => .ok stack
  | i :: rest, stack =>
      match i.run stack with
      | .error cause => .error cause
      | .ok next => run rest next

theorem run_append (p q : Program) (stack : List Float) :
    run (p ++ q) stack =
      match run p stack with
      | .error cause => .error cause
      | .ok next => run q next := by
  induction p generalizing stack with
  | nil => rfl
  | cons i p ih =>
      simp only [List.cons_append, run]
      cases i.run stack with
      | error cause => rfl
      | ok next => exact ih next

def result : List Float → Except ArithmeticError Float
  | [] => .error .stackUnderflow
  | [x] => .ok x
  | _ :: rest => .error (.unconsumedOperands rest.length)

def evaluate (p : Program) : Except ArithmeticError Float :=
  match run p [] with
  | .error cause => .error cause
  | .ok stack => result stack

def text (p : Program W J) : String :=
  " ".intercalate (p.map Instruction.text)

def alike : Program W J → Program W J → Bool
  | [], [] => true
  | i :: p, j :: q => i.alike j && alike p q
  | _, _ => false

end Program

end InfixArithmetic

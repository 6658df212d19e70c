import InfixArithmetic.Operator
import InfixArithmetic.Text.Quoted

/-!
Operations: a name with a priority, its place beside its operands, and what it makes of them.
Higher priorities bind tighter.  What operations make of one operand and of two is named in `W` and
in `J`, by default with the operators of the calculator.
-/

namespace InfixArithmetic

abbrev Priority := Int32

inductive Associativity where
  | left
  | right
  deriving DecidableEq

/-- What an operation with one operand makes of it; a group leaves it as it is. -/
inductive Wrap where
  | operator (f : UnaryOperator)
  | group
  deriving DecidableEq

def Wrap.apply : Wrap → Float → Except ArithmeticError Float
  | .operator f, x => f.apply x
  | .group, x => .ok x

structure Leading (W : Type := Wrap) where
  name : String
  priority : Priority
  wrap : W
  deriving DecidableEq

/-- Where an operation stands that does not come first, and what it makes of its operands. -/
inductive Form (W : Type := Wrap) (J : Type := BinaryOperator) where
  | behind (wrap : W)
  | between (associativity : Associativity) (join : J)
  deriving DecidableEq

/-- An operation written after its operand, or between two. -/
structure Trailing (W : Type := Wrap) (J : Type := BinaryOperator) where
  name : String
  priority : Priority
  form : Form W J
  deriving DecidableEq

inductive Operation (W : Type := Wrap) (J : Type := BinaryOperator) where
  | leading (op : Leading W)
  | trailing (op : Trailing W J)
  deriving DecidableEq

variable {W J : Type}

def openGroup : String := "("

def closeGroup : String := ")"

def Leading.opensGroup (op : Leading W) : Bool :=
  op.name = openGroup

def Trailing.closesGroup (op : Trailing W J) : Bool :=
  match op.form with
  | .behind _ => op.name = closeGroup
  | .between _ _ => false

theorem Trailing.closesGroup_iff {op : Trailing W J} :
    op.closesGroup = true ↔ (∃ wrap, op.form = .behind wrap) ∧ op.name = closeGroup := by
  cases hf : op.form <;> simp [closesGroup, hf]

theorem Trailing.closesGroup_between {op : Trailing W J} {a : Associativity} {join : J}
    (hf : op.form = .between a join) : op.closesGroup = false := by
  simp [closesGroup, hf]

namespace Operation

inductive Kind where
  | before
  | behind
  | between (associativity : Associativity)
  deriving DecidableEq

def name : Operation W J → String
  | .leading op => op.name
  | .trailing op => op.name

def priority : Operation W J → Priority
  | .leading op => op.priority
  | .trailing op => op.priority

def kind : Operation W J → Kind
  | .leading _ => .before
  | .trailing op =>
      match op.form with
      | .behind _ => .behind
      | .between associativity _ => .between associativity

def leads : Operation W J → Bool
  | .leading _ => true
  | .trailing _ => false

def opensGroup : Operation W J → Bool
  | .leading op => op.opensGroup
  | .trailing _ => false

def closesGroup : Operation W J → Bool
  | .leading _ => false
  | .trailing op => op.closesGroup

def alike (p q : Operation W J) : Bool :=
  p.kind = q.kind && p.name = q.name && p.priority = q.priority

def Kind.word : Kind → String
  | .before => "prefix"
  | .behind => "postfix"
  | .between _ => "infix"

def description (op : Operation) : String :=
  op.kind.word ++ " " ++ Text.quoted op.name ++ " (" ++ toString op.priority.toInt ++ ")"

end Operation

end InfixArithmetic

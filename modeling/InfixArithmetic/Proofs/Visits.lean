import InfixArithmetic.Expression.Outline
import InfixArithmetic.Expression.Postfix

/-!
Visits of expressions.  Serialization and the outline make something of an expression out of what
they make of its operands, and so take as many calls inside one another as the expression is tall.
Evaluation does not go on behind an operand without a value, and surely takes as many calls only
where there is none (`evaluationHeight_eq`).
-/

namespace InfixArithmetic

variable {W J : Type}

/-- What is made of each kind of expression, given what was made of its operands. -/
structure Visitor (W J α : Type) where
  value : String → α
  literal : Float → α
  binary : BinaryOperator → α → α → α
  unary : UnaryOperator → α → α
  program : Program W J → α

namespace Visitor

def serialization (g : Grammar W J) : Visitor W J (Except SyntaxError (Program W J)) where
  value word := .ok [.value word]
  literal x := .ok [.literal x]
  binary f left right := do
    let p ← left
    let q ← right
    let op ← g.binaryInstruction f
    return p ++ q ++ [op]
  unary f operand := do
    let p ← operand
    let op ← g.unaryInstruction f
    return p ++ [op]
  program p := .ok p

def outline : Visitor W J (Forest → Forest) where
  value word := Forest.node word .nil
  literal x := Forest.node (Decimal.text x) .nil
  binary f left right := Forest.node f.symbol (left (right .nil))
  unary f operand := Forest.node f.symbol (operand .nil)
  program p := Forest.node "rpn" (.leaves (p.map Instruction.text))

end Visitor

namespace Expression

section

variable {α : Type} (v : Visitor W J α)

def visit : Expression W J → α
  | .value word => v.value word
  | .literal x => v.literal x
  | .binary f left right => v.binary f left.visit right.visit
  | .unary f operand => v.unary f operand.visit
  | .program p => v.program p

/-- A visit that gives up where it would take more calls, one inside another. -/
def visitWithin : Nat → Expression W J → Option α
  | 0, _ => none
  | _ + 1, .value word => some (v.value word)
  | _ + 1, .literal x => some (v.literal x)
  | calls + 1, .binary f left right => do
      let a ← left.visitWithin calls
      let b ← right.visitWithin calls
      return v.binary f a b
  | calls + 1, .unary f operand => (operand.visitWithin calls).map (v.unary f)
  | _ + 1, .program p => some (v.program p)

end

def height : Expression W J → Nat
  | .value _ | .literal _ | .program _ => 1
  | .binary _ left right => max left.height right.height + 1
  | .unary _ operand => operand.height + 1

theorem height_pos (e : Expression W J) : 0 < e.height := by
  cases e <;> simp [height]

theorem visitWithin_eq {α : Type} (v : Visitor W J α) (calls : Nat) (e : Expression W J) :
    e.visitWithin v calls = if e.height ≤ calls then some (e.visit v) else none := by
  induction e generalizing calls with
  | value word => cases calls <;> simp [visitWithin, height, visit]
  | literal x => cases calls <;> simp [visitWithin, height, visit]
  | program p => cases calls <;> simp [visitWithin, height, visit]
  | unary f operand ih =>
      cases calls with
      | zero => simp [visitWithin, height]
      | succ calls =>
          simp only [visitWithin, ih, height, visit, Nat.add_le_add_iff_right]
          split <;> rfl
  | binary f left right ihl ihr =>
      cases calls with
      | zero => simp [visitWithin, height]
      | succ calls =>
          simp only [visitWithin, ihl, ihr, height, visit, Nat.add_le_add_iff_right,
            Nat.max_le]
          by_cases hl : left.height ≤ calls
          · by_cases hr : right.height ≤ calls <;> simp [hl, hr]
          · simp [hl]

theorem visit_serialization (g : Grammar W J) (e : Expression W J) :
    e.visit (.serialization g) = e.toProgram g := by
  induction e with
  | value word => rfl
  | literal x => rfl
  | program p => rfl
  | unary f operand ih =>
      rw [visit, ih]
      rfl
  | binary f left right ihl ihr =>
      rw [visit, ihl, ihr]
      rfl

theorem visit_outline (e : Expression W J) : e.visit .outline = e.outline := by
  induction e with
  | value word => rfl
  | literal x => rfl
  | program p => rfl
  | unary f operand ih =>
      rw [visit, ih]
      rfl
  | binary f left right ihl ihr =>
      rw [visit, ihl, ihr]
      rfl

def evaluateWithin : Nat → Expression → Option (Except ArithmeticError Float)
  | 0, _ => none
  | _ + 1, .value word => some (numberOf word)
  | _ + 1, .literal x => some (.ok x)
  | calls + 1, .binary f left right =>
      match left.evaluateWithin calls with
      | none => none
      | some (.error cause) => some (.error cause)
      | some (.ok x) => (right.evaluateWithin calls).map (·.map (f.apply x))
  | calls + 1, .unary f operand => (operand.evaluateWithin calls).map (·.bind f.apply)
  | _ + 1, .program p => some p.evaluate

/-- The calls inside one another of an evaluation, which ends at the first operand without value. -/
def evaluationHeight : Expression → Nat
  | .value _ | .literal _ | .program _ => 1
  | .binary _ left right =>
      match left.evaluate with
      | .error _ => left.evaluationHeight + 1
      | .ok _ => max left.evaluationHeight right.evaluationHeight + 1
  | .unary _ operand => operand.evaluationHeight + 1

theorem evaluateWithin_eq (calls : Nat) (e : Expression) :
    e.evaluateWithin calls = if e.evaluationHeight ≤ calls then some e.evaluate else none := by
  induction e generalizing calls with
  | value word => cases calls <;> simp [evaluateWithin, evaluationHeight, evaluate]
  | literal x => cases calls <;> simp [evaluateWithin, evaluationHeight, evaluate]
  | program p => cases calls <;> simp [evaluateWithin, evaluationHeight, evaluate]
  | unary f operand ih =>
      cases calls with
      | zero => simp [evaluateWithin, evaluationHeight]
      | succ calls =>
          simp only [evaluateWithin, ih, evaluationHeight, evaluate, Nat.add_le_add_iff_right]
          split <;> rfl
  | binary f left right ihl ihr =>
      cases calls with
      | zero => cases hl : left.evaluate <;> simp [evaluateWithin, evaluationHeight, hl]
      | succ calls =>
          cases hl : left.evaluate with
          | error cause =>
              simp only [evaluateWithin, ihl, evaluationHeight, evaluate, hl,
                Nat.add_le_add_iff_right]
              by_cases hleft : left.evaluationHeight ≤ calls <;>
                simp only [hleft, if_true, if_false]
              rfl
          | ok x =>
              simp only [evaluateWithin, ihl, ihr, evaluationHeight, evaluate, hl,
                Nat.add_le_add_iff_right, Nat.max_le]
              by_cases hleft : left.evaluationHeight ≤ calls
              · by_cases hright : right.evaluationHeight ≤ calls
                · simp only [hleft, hright, and_self, if_true, Option.map_some]
                  cases right.evaluate <;> rfl
                · simp [hleft, hright]
              · simp [hleft]

theorem evaluationHeight_le (e : Expression) : e.evaluationHeight ≤ e.height := by
  induction e with
  | value | literal | program => exact Nat.le_refl _
  | unary f operand ih => exact Nat.succ_le_succ ih
  | binary f left right ihl ihr =>
      simp only [evaluationHeight, height]
      split <;> omega

theorem evaluationHeight_eq {e : Expression} {x : Float} (h : e.evaluate = .ok x) :
    e.evaluationHeight = e.height := by
  induction e generalizing x with
  | value | literal | program => rfl
  | unary f operand ih =>
      cases ho : operand.evaluate with
      | error cause => simp [evaluate, ho, bind, Except.bind] at h
      | ok y => simp only [evaluationHeight, height, ih ho]
  | binary f left right ihl ihr =>
      cases hl : left.evaluate with
      | error cause => simp [evaluate, hl, bind, Except.bind] at h
      | ok y =>
          cases hr : right.evaluate with
          | error cause => simp [evaluate, hl, hr, bind, Except.bind] at h
          | ok z => simp only [evaluationHeight, height, hl, ihl hl, ihr hr]

end Expression

end InfixArithmetic


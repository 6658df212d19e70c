import InfixArithmetic.Evaluation
import InfixArithmetic.Proofs.CalculatorPrograms

/-!
Squares spelled as powers of two.  Only how powers are taken can tell an expression or a program
from the one that has them in place of its squares, so evaluation leaves that open here.
-/

namespace InfixArithmetic

open Grammar (calculator)

def caret : Trailing :=
  ⟨"^", 4, .between .right .exponentiate⟩

def squaring : Trailing :=
  ⟨"**", 4, .behind (.operator .square)⟩

theorem trailing?_caret : calculator.trailing? "^" = some caret := rfl

theorem trailing?_squaring : calculator.trailing? "**" = some squaring := rfl

def Operation.squares : Operation → Bool
  | .leading _ => false
  | .trailing op => op.form = .behind (.operator .square)

def Instruction.spellSquares : Instruction → Program
  | .value word => [.value word]
  | .literal x => [.literal x]
  | .operation op =>
      if op.squares then [.value "2", .operation (.trailing caret)] else [.operation op]

def Program.spellSquares (p : Program) : Program :=
  p.flatMap Instruction.spellSquares

def Expression.spellSquares : Expression → Expression
  | .value word => .value word
  | .literal x => .literal x
  | .binary f left right => .binary f left.spellSquares right.spellSquares
  | .unary f operand =>
      if f = .square then .binary .exponentiate operand.spellSquares (.value "2")
      else .unary f operand.spellSquares
  | .program p => .program p.spellSquares

namespace Program

theorem spellSquares_append (p q : Program) :
    (p ++ q).spellSquares = p.spellSquares ++ q.spellSquares :=
  List.flatMap_append

theorem spellSquares_operation {op : Operation} (h : op.squares = false) :
    spellSquares [.operation op] = [.operation op] := by
  simp [spellSquares, Instruction.spellSquares, h]

theorem spellSquares_operations {ops : List Operation} (h : ∀ op ∈ ops, op.squares = false) :
    spellSquares (ops.map .operation) = ops.map .operation := by
  induction ops with
  | nil => rfl
  | cons op ops ih =>
      have hrest := ih fun q hq => h q (List.mem_cons_of_mem op hq)
      simpa [spellSquares, Instruction.spellSquares, h op List.mem_cons_self] using hrest

theorem spellSquares_eq_nil {p : Program} : p.spellSquares = [] ↔ p = [] := by
  cases p with
  | nil => simp [spellSquares]
  | cons i p =>
      have hi : i.spellSquares ≠ [] := by
        cases i with
        | value | literal => simp [Instruction.spellSquares]
        | operation op => cases h : op.squares <;> simp [Instruction.spellSquares, h]
      simp [spellSquares, hi]

end Program

theorem Expression.programFree_spellSquares (e : Expression) :
    e.spellSquares.programFree = e.programFree := by
  induction e with
  | value | literal | program => rfl
  | binary f left right ihl ihr => simp [spellSquares, programFree, ihl, ihr]
  | unary f operand ih =>
      by_cases hf : f = .square <;> simp [spellSquares, programFree, hf, ih]

theorem Postfix.spellSquares {e : Expression} {p : Program} (h : Postfix calculator e p) :
    Postfix calculator e.spellSquares p.spellSquares := by
  induction h with
  | value word => exact .value word
  | literal x => exact .literal x
  | program p => exact .program _
  | @leading op e p hop hg _ ih =>
      obtain ⟨f, hw, hf, _⟩ := mem_leading_calculator hop hg
      have hne : f ≠ .square := by
        rintro rfl
        cases hf
      have hpost := Postfix.leading hop hg ih
      rw [Program.spellSquares_append, Program.spellSquares_operation rfl, hw]
      rw [hw] at hpost
      simpa [Wrap.build, Expression.spellSquares, hne] using hpost
  | @behind op wrap e p hop hf hg _ ih =>
      rcases mem_trailing_calculator hop with hc | ⟨f, hform, _, _, _⟩ | ⟨a, f, hform, _⟩
      · simp [hg] at hc
      · obtain rfl := Form.behind.inj (hf.symm.trans hform)
        rw [Program.spellSquares_append]
        by_cases hs : f = .square
        · subst hs
          have hpost := Postfix.between (List.mem_of_find?_eq_some trailing?_caret) rfl ih
            (.value "2")
          simpa [Wrap.build, Expression.spellSquares, Program.spellSquares,
            Instruction.spellSquares, Operation.squares, hf] using hpost
        · have hpost := Postfix.behind hop hf hg ih
          rw [Program.spellSquares_operation (by simp [Operation.squares, hf, hs])]
          simpa [Wrap.build, Expression.spellSquares, hs] using hpost
      · cases hf.symm.trans hform
  | @between op a f left right p q hop hf _ _ ihl ihr =>
      rw [Program.spellSquares_append, Program.spellSquares_append,
        Program.spellSquares_operation (by simp [Operation.squares, hf])]
      exact .between hop hf ihl ihr

section

variable (power : Float → Float → Float)

def BinaryOperator.applyBy : BinaryOperator → Float → Float → Float
  | .exponentiate => power
  | .add => BinaryOperator.add.apply
  | .subtract => BinaryOperator.subtract.apply
  | .multiply => BinaryOperator.multiply.apply
  | .divide => BinaryOperator.divide.apply

def BinaryOperator.runBy (f : BinaryOperator) :
    List Float → Except ArithmeticError (List Float)
  | right :: left :: stack => .ok (f.applyBy power left right :: stack)
  | _ => .error .stackUnderflow

def Instruction.runBy : Instruction → List Float → Except ArithmeticError (List Float)
  | .value word, stack => (numberOf word).map (· :: stack)
  | .literal x, stack => .ok (x :: stack)
  | .operation (.leading op), stack => op.wrap.run stack
  | .operation (.trailing op), stack =>
      match op.form with
      | .behind wrap => wrap.run stack
      | .between _ f => f.runBy power stack

def Program.runBy : Program → List Float → Except ArithmeticError (List Float)
  | [], stack => .ok stack
  | i :: rest, stack => (i.runBy power stack).bind (runBy rest)

def Program.evaluateBy (p : Program) : Except ArithmeticError Float :=
  (p.runBy power []).bind result

def Expression.evaluateBy : Expression → Except ArithmeticError Float
  | .value word => numberOf word
  | .literal x => .ok x
  | .binary f left right =>
      left.evaluateBy.bind fun x => right.evaluateBy.map fun y => f.applyBy power x y
  | .unary f operand => operand.evaluateBy.bind f.apply
  | .program p => p.evaluateBy power

/-- What comes of a text that has been read so. -/
def outcomeBy : Except SyntaxError (Option Expression) → Except Failure (Option Float)
  | .error cause => .error (.parsing cause)
  | .ok none => .ok none
  | .ok (some e) =>
      match e.evaluateBy power with
      | .error cause => .error (.evaluating cause)
      | .ok x => .ok (some x)

end

theorem BinaryOperator.applyBy_pow (f : BinaryOperator) : f.applyBy Float.pow = f.apply := by
  cases f <;> rfl

theorem Instruction.runBy_pow (i : Instruction) (stack : List Float) :
    i.runBy Float.pow stack = i.run stack := by
  cases i with
  | value | literal => rfl
  | operation op =>
      cases op with
      | leading op => rfl
      | trailing op =>
          simp only [runBy, run, Operation.run]
          cases op.form with
          | behind wrap => rfl
          | between a f =>
              rcases stack with _ | ⟨y, _ | ⟨x, stack⟩⟩ <;>
                simp [BinaryOperator.runBy, BinaryOperator.run, BinaryOperator.applyBy_pow]

theorem Program.evaluateBy_pow (p : Program) : p.evaluateBy Float.pow = p.evaluate := by
  have hrun (q : Program) (stack : List Float) : q.runBy Float.pow stack = q.run stack := by
    induction q generalizing stack with
    | nil => rfl
    | cons i q ih =>
        simp only [runBy, run, Instruction.runBy_pow]
        cases i.run stack with
        | error cause => rfl
        | ok next => exact ih next
  simp only [evaluateBy, evaluate, hrun]
  cases p.run [] <;> rfl

theorem Expression.evaluateBy_pow (e : Expression) : e.evaluateBy Float.pow = e.evaluate := by
  induction e with
  | value | literal => rfl
  | program p => exact p.evaluateBy_pow
  | unary f operand ih =>
      rw [evaluateBy, ih]
      rfl
  | binary f left right ihl ihr =>
      rw [evaluateBy, ihl, ihr, evaluate, BinaryOperator.applyBy_pow]
      cases left.evaluate with
      | error cause => rfl
      | ok x => cases right.evaluate <;> rfl

theorem outcomeBy_pow (g : Grammar) (mode : Mode) (text : String) :
    outcomeBy Float.pow (parse g mode text) = evaluate g mode text := by
  rw [evaluate, evaluateAs]
  cases parse g mode text with
  | error cause => rfl
  | ok found =>
      cases found with
      | none => rfl
      | some e =>
          have he := e.evaluateBy_pow
          cases hv : e.evaluate <;> simp [outcomeBy, he, hv]

theorem numberOf_two : numberOf "2" = .ok 2.0 := by
  have h : readNumber? "2" = some 2.0 := by decide
  rw [numberOf, h]

section

variable {power : Float → Float → Float} (hpower : ∀ x, power x 2.0 = x * x)

include hpower

theorem Instruction.runBy_spellSquares (i : Instruction) (stack : List Float) :
    Program.runBy power i.spellSquares stack = i.runBy power stack := by
  have hsingle (j : Instruction) : Program.runBy power [j] stack = j.runBy power stack := by
    simp only [Program.runBy]
    cases j.runBy power stack <;> rfl
  cases i with
  | value | literal => exact hsingle _
  | operation op =>
      cases hs : op.squares with
      | false => simpa [spellSquares, hs] using hsingle (.operation op)
      | true =>
          cases op with
          | leading op => cases hs
          | trailing op =>
              have hf : op.form = .behind (.operator .square) := by
                simpa [Operation.squares] using hs
              cases stack with
              | nil =>
                  simp [spellSquares, hs, Program.runBy, runBy, hf, numberOf_two, caret, Except.map,
                    Except.bind, BinaryOperator.runBy, Wrap.run]
              | cons x stack =>
                  simp [spellSquares, hs, Program.runBy, runBy, hf, numberOf_two, caret, Except.map,
                    Except.bind, BinaryOperator.runBy, BinaryOperator.applyBy, hpower, Wrap.run,
                    Wrap.apply, UnaryOperator.apply]

theorem Program.runBy_spellSquares (p : Program) (stack : List Float) :
    Program.runBy power (Program.spellSquares p) stack = Program.runBy power p stack := by
  have happend (q r : Program) (stack : List Float) :
      runBy power (q ++ r) stack = (runBy power q stack).bind (runBy power r) := by
    induction q generalizing stack with
    | nil => rfl
    | cons i q ih =>
        simp only [List.cons_append, runBy]
        cases i.runBy power stack with
        | error cause => rfl
        | ok next => exact ih next
  induction p generalizing stack with
  | nil => rfl
  | cons i p ih =>
      have hcons : spellSquares (i :: p) = i.spellSquares ++ spellSquares p := rfl
      rw [hcons, happend, Instruction.runBy_spellSquares hpower, runBy]
      cases i.runBy power stack with
      | error cause => rfl
      | ok next => exact ih next

theorem Expression.evaluateBy_spellSquares (e : Expression) :
    e.spellSquares.evaluateBy power = e.evaluateBy power := by
  induction e with
  | value | literal => rfl
  | program p =>
      simp [spellSquares, evaluateBy, Program.evaluateBy, Program.runBy_spellSquares hpower]
  | binary f left right ihl ihr => simp [spellSquares, evaluateBy, ihl, ihr]
  | unary f operand ih =>
      by_cases hf : f = .square
      · subst hf
        simp [spellSquares, evaluateBy, ih, numberOf_two, Except.map, BinaryOperator.applyBy,
          hpower]
        rfl
      · simp [spellSquares, evaluateBy, hf, ih]

end

end InfixArithmetic

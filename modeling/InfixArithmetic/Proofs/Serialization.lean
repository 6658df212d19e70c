import InfixArithmetic.Expression.Postfix

/-!
Postfix programs of expressions.  A program that writes an expression in postfix order leaves its
value on top of whatever the stack holds, and fails with its error; what a program inside it does on
a stack of its own it does above other operands too, unless it asks for one of them.
-/

namespace InfixArithmetic

inductive Postfix (g : Grammar) : Expression → Program → Prop
  | value (word : String) : Postfix g (.value word) [.value word]
  | literal (x : Float) : Postfix g (.literal x) [.literal x]
  | program (p : Program) : Postfix g (.program p) p
  | leading {op : Leading} {e : Expression} {p : Program} (hop : op ∈ g.leading)
      (hg : op.opensGroup = false) (h : Postfix g e p) :
      Postfix g (op.wrap.build e) (p ++ [.operation (.leading op)])
  | behind {op : Trailing} {wrap : Wrap} {e : Expression} {p : Program} (hop : op ∈ g.trailing)
      (hf : op.form = .behind wrap) (hg : op.closesGroup = false) (h : Postfix g e p) :
      Postfix g (wrap.build e) (p ++ [.operation (.trailing op)])
  | between {op : Trailing} {a : Associativity} {f : BinaryOperator} {left right : Expression}
      {p q : Program} (hop : op ∈ g.trailing) (hf : op.form = .between a f)
      (hl : Postfix g left p) (hr : Postfix g right q) :
      Postfix g (.binary f left right) (p ++ q ++ [.operation (.trailing op)])

def ArithmeticError.isStructural : ArithmeticError → Bool
  | .stackUnderflow | .unconsumedOperands _ => true
  | _ => false

def Malformed (r : Except ArithmeticError Float) : Prop :=
  ∃ cause, r = .error cause ∧ cause.isStructural = true

theorem Wrap.run_below (wrap : Wrap) (stack below : List Float) :
    wrap.run stack = .error .stackUnderflow ∨
      wrap.run (stack ++ below) = (wrap.run stack).map (· ++ below) := by
  cases stack with
  | nil => exact Or.inl rfl
  | cons x stack =>
      right
      simp only [Wrap.run, List.cons_append]
      cases wrap.apply x <;> rfl

theorem BinaryOperator.run_below (f : BinaryOperator) (stack below : List Float) :
    f.run stack = .error .stackUnderflow ∨
      f.run (stack ++ below) = (f.run stack).map (· ++ below) := by
  rcases stack with _ | ⟨y, _ | ⟨x, stack⟩⟩
  · exact Or.inl rfl
  · exact Or.inl rfl
  · exact Or.inr rfl

theorem Operation.run_below (op : Operation) (stack below : List Float) :
    op.run stack = .error .stackUnderflow ∨
      op.run (stack ++ below) = (op.run stack).map (· ++ below) := by
  cases op with
  | leading op => exact op.wrap.run_below stack below
  | trailing op =>
      simp only [Operation.run]
      cases op.form with
      | behind wrap => exact wrap.run_below stack below
      | between a f => exact f.run_below stack below

theorem Instruction.run_below (i : Instruction) (stack below : List Float) :
    i.run stack = .error .stackUnderflow ∨
      i.run (stack ++ below) = (i.run stack).map (· ++ below) := by
  cases i with
  | value word =>
      right
      simp only [Instruction.run]
      cases numberOf word <;> rfl
  | literal x => exact Or.inr rfl
  | operation op => exact op.run_below stack below

namespace Program

theorem run_singleton (i : Instruction) (stack : List Float) : run [i] stack = i.run stack := by
  simp only [run]
  cases i.run stack <;> rfl

theorem run_below (p : Program) (stack below : List Float) :
    run p stack = .error .stackUnderflow ∨
      run p (stack ++ below) = (run p stack).map (· ++ below) := by
  induction p generalizing stack with
  | nil => exact Or.inr rfl
  | cons i p ih =>
      simp only [run]
      rcases i.run_below stack below with h | h
      · simp [h]
      · rw [h]
        cases i.run stack with
        | error cause => exact Or.inr rfl
        | ok next => exact ih next

theorem run_of_evaluate (p : Program) (stack : List Float) :
    Malformed p.evaluate ∨ run p stack = p.evaluate.map (· :: stack) := by
  have hb := run_below p [] stack
  simp only [evaluate]
  cases hp : run p [] with
  | error cause =>
      rw [hp] at hb
      rcases hb with h | h
      · cases h
        exact Or.inl ⟨.stackUnderflow, rfl, rfl⟩
      · exact Or.inr h
  | ok out =>
      rcases out with _ | ⟨x, _ | ⟨y, out⟩⟩
      · exact Or.inl ⟨.stackUnderflow, rfl, rfl⟩
      · right
        simpa [hp, result, Except.map] using hb
      · exact Or.inl ⟨.unconsumedOperands _, rfl, rfl⟩

end Program

namespace Postfix

variable {g : Grammar} {e left right : Expression} {p q : Program} {stack : List Float}

theorem run_wrap {wrap : Wrap} {i : Instruction} (hi : i.run = wrap.run)
    (h : Malformed e.evaluate ∨ Program.run p stack = e.evaluate.map (· :: stack)) :
    Malformed (wrap.build e).evaluate ∨
      Program.run (p ++ [i]) stack = (wrap.build e).evaluate.map (· :: stack) := by
  rw [Wrap.evaluate_build]
  rcases h with ⟨cause, hc, hs⟩ | h
  · exact Or.inl ⟨cause, by rw [hc]; rfl, hs⟩
  · right
    rw [Program.run_append, h]
    cases e.evaluate with
    | error cause => rfl
    | ok x =>
        have hx : Program.run [i] (x :: stack) = (wrap.apply x).map (· :: stack) := by
          rw [Program.run_singleton, hi]
          rfl
        exact hx

theorem run_between {f : BinaryOperator} {i : Instruction} (hi : i.run = f.run)
    (hl : Malformed left.evaluate ∨ Program.run p stack = left.evaluate.map (· :: stack))
    (hr : ∀ x, Malformed right.evaluate ∨
      Program.run q (x :: stack) = right.evaluate.map (· :: x :: stack)) :
    Malformed (Expression.binary f left right).evaluate ∨
      Program.run (p ++ q ++ [i]) stack =
        (Expression.binary f left right).evaluate.map (· :: stack) := by
  simp only [Expression.evaluate]
  rcases hl with ⟨cause, hc, hs⟩ | hl
  · exact Or.inl ⟨cause, by rw [hc]; rfl, hs⟩
  · rw [List.append_assoc, Program.run_append, hl]
    cases left.evaluate with
    | error cause => exact Or.inr rfl
    | ok x =>
        rcases hr x with ⟨cause, hc, hs⟩ | hr
        · exact Or.inl ⟨cause, by rw [hc]; rfl, hs⟩
        · right
          simp only [Except.map]
          rw [Program.run_append, hr]
          cases right.evaluate with
          | error cause => rfl
          | ok y =>
              have hxy : Program.run [i] (y :: x :: stack) = .ok (f.apply x y :: stack) := by
                rw [Program.run_singleton, hi]
                rfl
              exact hxy

theorem run_operation_behind {op : Trailing} {wrap : Wrap} (hf : op.form = .behind wrap) :
    (Instruction.operation (.trailing op)).run = wrap.run := by
  funext stack
  simp [Instruction.run, Operation.run, hf]

theorem run_operation_between {op : Trailing} {a : Associativity} {f : BinaryOperator}
    (hf : op.form = .between a f) : (Instruction.operation (.trailing op)).run = f.run := by
  funext stack
  simp [Instruction.run, Operation.run, hf]

theorem run (h : Postfix g e p) (stack : List Float) :
    Malformed e.evaluate ∨ Program.run p stack = e.evaluate.map (· :: stack) := by
  induction h generalizing stack with
  | value word => exact Or.inr (Program.run_singleton _ _)
  | literal x => exact Or.inr rfl
  | program p => exact Program.run_of_evaluate p stack
  | leading _ _ _ ih => exact run_wrap rfl (ih stack)
  | behind _ hf _ _ ih => exact run_wrap (run_operation_behind hf) (ih stack)
  | between _ hf _ _ ihl ihr =>
      exact run_between (run_operation_between hf) (ihl stack) (fun x => ihr (x :: stack))

theorem evaluate (h : Postfix g e p) : Malformed e.evaluate ∨ p.evaluate = e.evaluate := by
  rcases h.run [] with hm | hr
  · exact Or.inl hm
  · right
    rw [Program.evaluate, hr]
    cases e.evaluate <;> rfl

end Postfix

end InfixArithmetic

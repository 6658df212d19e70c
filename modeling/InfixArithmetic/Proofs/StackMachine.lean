import InfixArithmetic.Proofs.Operands
import Mathlib.Data.List.Induction

/-!
The stack machine.  Values and literals less operations between operands count what is on the stack
after every part of a program, whatever the program.  An instruction that lacks operands by that
count, a word that writes no finite number, or an operation that has no result, whichever comes
first, is the error of a run; a run without them ends with as many operands as the count says.
-/

namespace InfixArithmetic

/-- The word writes this finite number. -/
def Denotes (word : String) (x : Float) : Prop :=
  x.isFinite = true ∧ ∃ n, Numeral.ofList? word.toList = some n ∧ n.toFloat = x

theorem numberOf_of_denotes {word : String} {x : Float} (h : Denotes word x) :
    numberOf word = .ok x := by
  obtain ⟨hx, n, hn, rfl⟩ := h
  simp [numberOf, readNumber?, hn, hx]

theorem numberOf_of_not_denotes {word : String} (h : ∀ x, ¬ Denotes word x) :
    numberOf word = .error (.invalidNumber word) := by
  cases hn : Numeral.ofList? word.toList with
  | none => simp [numberOf, readNumber?, hn]
  | some n =>
      have hx : n.toFloat.isFinite = false := by
        by_contra hx
        exact h n.toFloat ⟨by simpa using hx, n, hn, rfl⟩
      simp [numberOf, readNumber?, hn, hx]

theorem BinaryOperator.run_of_length_lt {f : BinaryOperator} {stack : List Float}
    (h : stack.length < 2) : f.run stack = .error .stackUnderflow := by
  rcases stack with _ | ⟨y, _ | ⟨x, stack⟩⟩
  · rfl
  · rfl
  · simp only [List.length_cons] at h
    omega

namespace Program

variable {p read rest : Program} {stack : List Float} {x : Float} {cause : ArithmeticError}

/-- Values and literals, less the operations between operands. -/
def height (p : Program) : Int :=
  p.countP (·.arity = 0) - p.countP (·.arity = 2)

theorem height_append_singleton (p : Program) (i : Instruction) :
    height (p ++ [i]) = p.height + 1 - i.arity := by
  have harity : i.arity = 0 ∨ i.arity = 1 ∨ i.arity = 2 := by
    cases i with
    | value | literal => exact .inl rfl
    | operation op => exact .inr op.arity_cases
  rcases harity with h | h | h <;> simp [height, List.countP_append, h] <;> omega

/-- The program runs without a fault, and leaves this stack. -/
inductive Stacks : Program → List Float → Prop
  | nil : Stacks [] []
  | value {p : Program} {stack : List Float} {word : String} {x : Float} (h : Stacks p stack)
      (hx : Denotes word x) : Stacks (p ++ [.value word]) (x :: stack)
  | literal {p : Program} {stack : List Float} (h : Stacks p stack) (x : Float) :
      Stacks (p ++ [.literal x]) (x :: stack)
  | wrap {p : Program} {stack : List Float} {op : Operation} {wrap : Wrap} {x y : Float}
      (h : Stacks p (x :: stack)) (hop : op.Wraps wrap) (hy : wrap.apply x = .ok y) :
      Stacks (p ++ [.operation op]) (y :: stack)
  | join {p : Program} {stack : List Float} {op : Operation} {f : BinaryOperator}
      {left right : Float} (h : Stacks p (right :: left :: stack)) (hop : op.Joins f) :
      Stacks (p ++ [.operation op]) (f.apply left right :: stack)

/-- The last instruction of the program is the first at fault. -/
inductive Faults : Program → ArithmeticError → Prop
  | number {p : Program} {stack : List Float} {word : String} (h : Stacks p stack)
      (hw : ∀ x, ¬ Denotes word x) : Faults (p ++ [.value word]) (.invalidNumber word)
  | lacksOne {p : Program} {stack : List Float} {op : Operation} {wrap : Wrap}
      (h : Stacks p stack) (hop : op.Wraps wrap) (hp : p.height < 1) :
      Faults (p ++ [.operation op]) .stackUnderflow
  | lacksTwo {p : Program} {stack : List Float} {op : Operation} {f : BinaryOperator}
      (h : Stacks p stack) (hop : op.Joins f) (hp : p.height < 2) :
      Faults (p ++ [.operation op]) .stackUnderflow
  | domain {p : Program} {stack : List Float} {op : Operation} {wrap : Wrap} {x : Float}
      {cause : ArithmeticError} (h : Stacks p (x :: stack)) (hop : op.Wraps wrap)
      (hx : wrap.apply x = .error cause) : Faults (p ++ [.operation op]) cause

theorem Stacks.length_eq (h : Stacks p stack) : (stack.length : Int) = p.height := by
  induction h with
  | nil => rfl
  | value _ _ ih | literal _ _ ih =>
      rw [height_append_singleton, ← ih]
      simp [Instruction.arity]
  | wrap _ hop _ ih =>
      rw [height_append_singleton, ← ih, Instruction.arity, hop.arity]
      simp
  | join _ hop ih =>
      rw [height_append_singleton, ← ih, Instruction.arity, hop.arity]
      simp
      omega

theorem run_append_singleton {i : Instruction} (h : p.run [] = .ok stack) :
    run (p ++ [i]) [] = i.run stack := by
  rw [run_append, h]
  simp only [run]
  cases i.run stack <;> rfl

theorem Stacks.run (h : Stacks p stack) : p.run [] = .ok stack := by
  induction h with
  | nil => rfl
  | value _ hx ih =>
      rw [run_append_singleton ih, Instruction.run, numberOf_of_denotes hx]
      rfl
  | literal _ x ih => exact run_append_singleton ih
  | wrap _ hop hy ih =>
      rw [run_append_singleton ih, Instruction.run, hop.run, Wrap.run, hy]
      rfl
  | join _ hop ih =>
      rw [run_append_singleton ih, Instruction.run, hop.run]
      rfl

theorem Faults.run (h : Faults p cause) : p.run [] = .error cause := by
  cases h with
  | number h hw =>
      rw [run_append_singleton h.run, Instruction.run, numberOf_of_not_denotes hw]
      rfl
  | @lacksOne p stack op wrap h hop hp =>
      have hlen := h.length_eq
      obtain rfl : stack = [] := List.eq_nil_of_length_eq_zero (by omega)
      rw [run_append_singleton h.run, Instruction.run, hop.run]
      rfl
  | lacksTwo h hop hp =>
      have hlen := h.length_eq
      rw [run_append_singleton h.run, Instruction.run, hop.run,
        BinaryOperator.run_of_length_lt (by omega)]
  | domain h hop hx =>
      rw [run_append_singleton h.run, Instruction.run, hop.run, Wrap.run, hx]
      rfl

theorem Faults.run_append (h : Faults read cause) (rest : Program) :
    Program.run (read ++ rest) [] = .error cause := by
  rw [Program.run_append, h.run]

theorem Stacks.step (h : Stacks p stack) (i : Instruction) :
    (∃ next, Stacks (p ++ [i]) next) ∨ ∃ cause, Faults (p ++ [i]) cause := by
  cases i with
  | value word =>
      by_cases hw : ∃ x, Denotes word x
      · exact .inl ⟨_, h.value hw.choose_spec⟩
      · exact .inr ⟨_, .number h (not_exists.mp hw)⟩
  | literal x => exact .inl ⟨_, h.literal x⟩
  | operation op =>
      rcases op.wraps_or_joins with ⟨wrap, hop⟩ | ⟨f, hop⟩
      · rcases stack with _ | ⟨x, stack⟩
        · exact .inr ⟨_, .lacksOne h hop (by rw [← h.length_eq]; simp)⟩
        · cases hx : wrap.apply x with
          | error cause => exact .inr ⟨cause, .domain h hop hx⟩
          | ok y => exact .inl ⟨_, h.wrap hop hx⟩
      · rcases stack with _ | ⟨right, _ | ⟨left, stack⟩⟩
        · exact .inr ⟨_, .lacksTwo h hop (by rw [← h.length_eq]; simp)⟩
        · exact .inr ⟨_, .lacksTwo h hop (by rw [← h.length_eq]; simp)⟩
        · exact .inl ⟨_, h.join hop⟩

theorem stacks_or_faults (p : Program) :
    (∃ stack, Stacks p stack) ∨ ∃ read rest cause, p = read ++ rest ∧ Faults read cause := by
  -- From the right, for whether an instruction is at fault depends on all before it.
  induction p using List.reverseRecOn with
  | nil => exact .inl ⟨[], .nil⟩
  | append_singleton p i ih =>
      rcases ih with ⟨stack, h⟩ | ⟨read, rest, cause, rfl, h⟩
      · rcases h.step i with hnext | ⟨cause, hfault⟩
        · exact .inl hnext
        · exact .inr ⟨_, [], cause, (List.append_nil _).symm, hfault⟩
      · exact .inr ⟨read, rest ++ [i], cause, List.append_assoc _ _ _, h⟩

theorem exists_stacks_iff :
    (∃ stack, Stacks p stack) ↔ ¬ ∃ read rest cause, p = read ++ rest ∧ Faults read cause := by
  constructor
  · rintro ⟨stack, h⟩ ⟨read, rest, cause, rfl, hfault⟩
    cases h.run.symm.trans (hfault.run_append rest)
  · exact (stacks_or_faults p).resolve_right

theorem Stacks.ne_nil (h : Stacks p stack) (hp : p ≠ []) : stack ≠ [] := by
  cases h with
  | nil => exact absurd rfl hp
  | value | literal | wrap | join => simp

theorem Stacks.one_le_height (h : Stacks p stack) (hp : p ≠ []) : 1 ≤ p.height := by
  have hpos := List.length_pos_iff.mpr (h.ne_nil hp)
  have hlen := h.length_eq
  omega

theorem Stacks.evaluate (h : Stacks p stack) : p.evaluate = result stack := by
  rw [Program.evaluate, h.run]

theorem result_of_length_gt (h : 1 < stack.length) :
    result stack = .error (.unconsumedOperands (stack.length - 1)) := by
  rcases stack with _ | ⟨x, _ | ⟨y, stack⟩⟩
  · simp at h
  · simp at h
  · rfl

theorem Stacks.evaluate_of_height_gt (h : Stacks p stack) (hp : 1 < p.height) :
    p.evaluate = .error (.unconsumedOperands (p.height - 1).toNat) := by
  have hlen := h.length_eq
  have hcount : (p.height - 1).toNat = stack.length - 1 := by omega
  rw [h.evaluate, hcount, result_of_length_gt (by omega)]

theorem Stacks.evaluate_of_height_eq_one (h : Stacks p stack) (hp : p.height = 1) :
    ∃ x, stack = [x] ∧ p.evaluate = .ok x := by
  have hlen := h.length_eq
  obtain ⟨x, rfl⟩ := List.length_eq_one_iff.mp (by omega : stack.length = 1)
  exact ⟨x, rfl, h.evaluate⟩

theorem evaluation_gives_the_first_fault (p : Program) :
    ((∃ stack, Stacks p stack) ↔ ¬ ∃ read rest cause, p = read ++ rest ∧ Faults read cause) ∧
    (∀ read rest cause, p = read ++ rest → Faults read cause → p.evaluate = .error cause) ∧
    ∀ stack, Stacks p stack →
      (p = [] → p.evaluate = .error .stackUnderflow) ∧ (p ≠ [] → 1 ≤ p.height) ∧
      (1 < p.height → p.evaluate = .error (.unconsumedOperands (p.height - 1).toNat)) ∧
      (p.height = 1 → ∃ x, stack = [x] ∧ p.evaluate = .ok x) := by
  refine ⟨exists_stacks_iff, ?_, ?_⟩
  · rintro read rest cause rfl hfault
    rw [evaluate, hfault.run_append rest]
  · intro stack h
    refine ⟨?_, h.one_le_height, h.evaluate_of_height_gt, h.evaluate_of_height_eq_one⟩
    rintro rfl
    rfl

end Program

end InfixArithmetic

import InfixArithmetic.Proofs.CalculatorPrograms

/-!
Operands on the stack.  How many a program leaves, and whether it asks for one that is not there,
does not depend on the numbers: every instruction takes its operands and puts one in their place.
-/

namespace InfixArithmetic

variable {W J : Type}

namespace Operation

variable {op : Operation W J} {wrap : W} {join : J}

def arity : Operation W J → Nat
  | .leading _ => 1
  | .trailing op =>
      match op.form with
      | .behind _ => 1
      | .between _ _ => 2

theorem arity_behind {op : Trailing W J} (hf : op.form = .behind wrap) :
    (Operation.trailing op).arity = 1 := by
  simp [arity, hf]

theorem arity_between {op : Trailing W J} {a : Associativity} (hf : op.form = .between a join) :
    (Operation.trailing op).arity = 2 := by
  simp [arity, hf]

def Wraps (wrap : W) : Operation W J → Prop
  | .leading op => op.wrap = wrap
  | .trailing op => op.form = .behind wrap

def Joins (join : J) : Operation W J → Prop
  | .leading _ => False
  | .trailing op => ∃ a, op.form = .between a join

theorem wraps_or_joins (op : Operation W J) : (∃ wrap, op.Wraps wrap) ∨ ∃ join, op.Joins join := by
  cases op with
  | leading op => exact .inl ⟨op.wrap, rfl⟩
  | trailing op =>
      cases hf : op.form with
      | behind wrap => exact .inl ⟨wrap, hf⟩
      | between a f => exact .inr ⟨f, a, hf⟩

theorem Wraps.arity (h : op.Wraps wrap) : op.arity = 1 := by
  cases op with
  | leading op => rfl
  | trailing op => exact arity_behind h

theorem Joins.arity (h : op.Joins join) : op.arity = 2 := by
  cases op with
  | leading op => cases h
  | trailing op => exact arity_between h.choose_spec

theorem arity_cases (op : Operation W J) : op.arity = 1 ∨ op.arity = 2 := by
  rcases op.wraps_or_joins with ⟨wrap, hop⟩ | ⟨join, hop⟩
  · exact Or.inl hop.arity
  · exact Or.inr hop.arity

theorem Wraps.run {op : Operation} {wrap : Wrap} (h : op.Wraps wrap)
    (stack : List Float) : op.run stack = wrap.run stack := by
  cases op with
  | leading op => rw [Operation.run, show op.wrap = wrap from h]
  | trailing op => simp [Operation.run, show op.form = .behind wrap from h]

theorem Joins.run {op : Operation} {f : BinaryOperator} (h : op.Joins f)
    (stack : List Float) : op.run stack = f.run stack := by
  cases op with
  | leading op => cases h
  | trailing op =>
      obtain ⟨a, hf⟩ := h
      simp [Operation.run, hf]

end Operation

def Instruction.arity : Instruction W J → Nat
  | .value _ | .literal _ => 0
  | .operation op => op.arity

/-- How many operands a program leaves of so many, unless it lacks one. -/
def Program.leaves : Program W J → Nat → Option Nat
  | [], operands => some operands
  | i :: rest, operands =>
      if i.arity ≤ operands then leaves rest (operands + 1 - i.arity) else none

def Program.values (p : Program W J) : List String :=
  p.filterMap fun
    | .value word => some word
    | .literal _ | .operation _ => none

/-- Done with this many operands on the stack, or failed for another reason than their number. -/
def Settles (operands : Nat) : Except ArithmeticError (List Float) → Prop
  | .ok stack => stack.length = operands
  | .error cause => cause.isStructural = false

theorem Wrap.settles_run {wrap : Wrap} {stack : List Float} (h : 1 ≤ stack.length) :
    Settles stack.length (wrap.run stack) := by
  cases stack with
  | nil => cases h
  | cons x stack =>
      cases wrap with
      | group => rfl
      | operator f =>
          simp only [run, apply]
          cases hx : f.apply x with
          | error cause => exact UnaryOperator.isStructural_of_apply hx
          | ok y => rfl

theorem BinaryOperator.settles_run {f : BinaryOperator} {stack : List Float}
    (h : 2 ≤ stack.length) : Settles (stack.length - 1) (f.run stack) := by
  rcases stack with _ | ⟨y, _ | ⟨x, stack⟩⟩
  · cases h
  · simp at h
  · rfl

theorem Operation.settles_run {op : Operation} {stack : List Float} (h : op.arity ≤ stack.length) :
    Settles (stack.length + 1 - op.arity) (op.run stack) := by
  rcases op.wraps_or_joins with ⟨wrap, hop⟩ | ⟨f, hop⟩
  · rw [hop.arity] at h ⊢
    rw [hop.run]
    exact wrap.settles_run h
  · rw [hop.arity] at h ⊢
    rw [hop.run]
    exact f.settles_run h

theorem Instruction.settles_run {i : Instruction} {stack : List Float}
    (h : i.arity ≤ stack.length) : Settles (stack.length + 1 - i.arity) (i.run stack) := by
  cases i with
  | value word =>
      simp only [run]
      cases hn : numberOf word with
      | error cause => exact isStructural_of_numberOf hn
      | ok x => rfl
  | literal x => rfl
  | operation op => exact op.settles_run h

namespace Program

theorem settles_run {p : Program} {stack : List Float} {operands : Nat}
    (h : p.leaves stack.length = some operands) : Settles operands (p.run stack) := by
  induction p generalizing stack with
  | nil => exact Option.some.inj h
  | cons i p ih =>
      simp only [leaves] at h
      split at h
      · rename_i hi
        have hs := i.settles_run hi
        simp only [run]
        cases hr : i.run stack with
        | error cause =>
            rw [hr] at hs
            exact hs
        | ok next =>
            rw [hr] at hs
            exact ih (by rwa [show next.length = _ from hs])
      · cases h

theorem not_malformed {p : Program} (h : p.leaves 0 = some 1) : ¬ Malformed p.evaluate := by
  rintro ⟨cause, hc, hs⟩
  have hr : Settles 1 (p.run []) := settles_run h
  rw [evaluate] at hc
  cases hp : p.run [] with
  | error other =>
      rw [hp] at hr hc
      cases hc
      simp [Settles, hs] at hr
  | ok stack =>
      rw [hp] at hr hc
      obtain ⟨x, rfl⟩ := List.length_eq_one_iff.mp hr
      cases hc

theorem leaves_append (p q : Program W J) (operands : Nat) :
    (p ++ q).leaves operands = (p.leaves operands).bind q.leaves := by
  induction p generalizing operands with
  | nil => rfl
  | cons i p ih =>
      simp only [List.cons_append, leaves]
      split
      · exact ih _
      · rfl

theorem leaves_singleton {i : Instruction W J} {operands : Nat} (h : i.arity ≤ operands) :
    leaves [i] operands = some (operands + 1 - i.arity) := by
  simp [leaves, h]

theorem leaves_operations (ops : List (Operation W J)) (kept : Nat) :
    leaves (ops.map .operation) (ops.countP (·.arity = 2) + kept + 1) = some (kept + 1) := by
  induction ops with
  | nil => simp [leaves]
  | cons op ops ih =>
      simp only [List.map_cons, leaves, Instruction.arity, List.countP_cons]
      rcases op.arity_cases with h | h
      · simpa [h] using ih
      · have hn : ops.countP (·.arity = 2) + 1 + kept + 1 + 1 - 2 =
            ops.countP (·.arity = 2) + kept + 1 := by omega
        have hle : 2 ≤ ops.countP (·.arity = 2) + 1 + kept + 1 := by omega
        simpa [h, hn, hle] using ih

theorem values_append (p q : Program W J) : (p ++ q).values = p.values ++ q.values :=
  List.filterMap_append

theorem values_operations (ops : List (Operation W J)) : values (ops.map .operation) = [] := by
  simp [values, List.filterMap_map]

end Program

end InfixArithmetic

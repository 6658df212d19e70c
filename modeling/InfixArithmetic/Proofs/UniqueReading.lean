import InfixArithmetic.Proofs.Assembly
import InfixArithmetic.Proofs.Held
import InfixArithmetic.Proofs.Operands
import Mathlib.Logic.ExistsUnique

/-!
Unique reading of postfix programs.  A program of a grammar's operations that never lacks an
operand, and leaves one, is the program of exactly one expression: read from the left it builds
expressions on a stack, and no other expression has the same program.
-/

namespace InfixArithmetic

open Grammar (calculator)

namespace Grammar

/-- The operation is what its name stands for. -/
def Has (g : Grammar) : Operation → Prop
  | .leading op => g.leading? op.name = some op
  | .trailing op => g.trailing? op.name = some op

/-- An operation of the grammar that no group is made of. -/
def Computes (g : Grammar) (op : Operation) : Prop :=
  g.Has op ∧ op.opensGroup = false ∧ op.closesGroup = false

end Grammar

namespace Program

variable {g : Grammar} {p q : Program}

def Uses (g : Grammar) (p : Program) : Prop :=
  ∀ op, .operation op ∈ p → g.Computes op

structure Complete (g : Grammar) (p : Program) : Prop where
  uses : p.Uses g
  leaves : p.leaves 0 = some 1

theorem uses_append : (p ++ q).Uses g ↔ p.Uses g ∧ q.Uses g := by
  simp only [Uses, List.mem_append, or_imp, forall_and]

theorem uses_cons {i : Instruction} : Uses g (i :: p) ↔ Uses g [i] ∧ p.Uses g :=
  uses_append (p := [i])

theorem uses_operation {op : Operation} : Uses g [.operation op] ↔ g.Computes op := by
  simp [Uses]

end Program

/-- The program of the expressions on a stack, the latest on top. -/
inductive Writes (g : Grammar) : List Expression → Program → Prop
  | nil : Writes g [] []
  | cons {stack : List Expression} {e : Expression} {p q : Program} (hs : Writes g stack p)
      (he : Postfix g e q) (hf : e.programFree = true) : Writes g (e :: stack) (p ++ q)

namespace Writes

variable {g : Grammar} {stack : List Expression} {p q : Program} {i : Instruction}

theorem wrap {wrap : Wrap} (h : Writes g stack p) (hs : 1 ≤ stack.length)
    (hw : ∀ e q, Postfix g e q → Postfix g (wrap.build e) (q ++ [i])) :
    ∃ next, Writes g next (p ++ [i]) ∧ next.length = stack.length := by
  cases h with
  | nil => simp at hs
  | @cons stack e p q hp he hf =>
      refine ⟨wrap.build e :: stack, ?_, rfl⟩
      rw [List.append_assoc]
      exact hp.cons (hw e q he) (by rwa [Wrap.programFree_build])

theorem join {f : BinaryOperator} (h : Writes g stack p) (hs : 2 ≤ stack.length)
    (hj : ∀ left right q r, Postfix g left q → Postfix g right r →
      Postfix g (.binary f left right) (q ++ r ++ [i])) :
    ∃ next, Writes g next (p ++ [i]) ∧ next.length + 1 = stack.length := by
  cases h with
  | nil => simp at hs
  | @cons stack right p r hp hr hfr =>
      cases hp with
      | nil => simp at hs
      | @cons stack left p q hp hl hfl =>
          refine ⟨.binary f left right :: stack, ?_, rfl⟩
          rw [List.append_assoc, List.append_assoc, ← List.append_assoc q]
          exact hp.cons (hj left right q r hl hr) (by simp [Expression.programFree, hfl, hfr])

theorem step (h : Writes g stack p) (hi : Program.Uses g [i]) (hs : i.arity ≤ stack.length) :
    ∃ next, Writes g next (p ++ [i]) ∧ next.length = stack.length + 1 - i.arity := by
  cases i with
  | value word => exact ⟨_, h.cons (.value word) rfl, rfl⟩
  | literal x => exact ⟨_, h.cons (.literal x) rfl, rfl⟩
  | operation op =>
      obtain ⟨hop, hopen, hclose⟩ := Program.uses_operation.mp hi
      cases op with
      | leading op =>
          exact h.wrap hs fun e q he => .leading (Grammar.leading?_eq_some hop).1 hopen he
      | trailing op =>
          have hmem := (Grammar.trailing?_eq_some hop).1
          simp only [Instruction.arity] at hs ⊢
          cases hf : op.form with
          | behind wrap =>
              rw [Operation.arity_behind hf] at hs ⊢
              exact h.wrap hs fun e q he => .behind hmem hf hclose he
          | between a f =>
              rw [Operation.arity_between hf] at hs ⊢
              obtain ⟨next, hw, hn⟩ := h.join hs fun left right q r hl hr =>
                .between hmem hf hl hr
              exact ⟨next, hw, by omega⟩

theorem run {operands : Nat} (h : Writes g stack p) (hq : q.Uses g)
    (hl : q.leaves stack.length = some operands) :
    ∃ next, Writes g next (p ++ q) ∧ next.length = operands := by
  induction q generalizing stack p with
  | nil => exact ⟨stack, by simpa using h, Option.some.inj hl⟩
  | cons i q ih =>
      obtain ⟨hi, hq⟩ := Program.uses_cons.mp hq
      simp only [Program.leaves] at hl
      split at hl
      · rename_i hs
        obtain ⟨mid, hmid, hlen⟩ := h.step hi hs
        rw [← hlen] at hl
        obtain ⟨next, hnext, hn⟩ := ih hmid hq hl
        exact ⟨next, by simpa using hnext, hn⟩
      · cases hl

theorem of_singleton {e : Expression} (h : Writes g [e] p) :
    Postfix g e p ∧ e.programFree = true := by
  cases h with
  | cons hs he hf =>
      cases hs
      exact ⟨he, hf⟩

end Writes

namespace Postfix

variable {g : Grammar} {e : Expression} {p : Program}

theorem leaves (h : Postfix g e p) (he : e.programFree = true) (operands : Nat) :
    p.leaves operands = some (operands + 1) := by
  induction h generalizing operands with
  | value | literal => rfl
  | program => cases he
  | leading _ _ _ ih =>
      rw [Wrap.programFree_build] at he
      rw [Program.leaves_append, ih he, Option.bind_some, Program.leaves_singleton] <;>
        simp [Instruction.arity, Operation.arity]
  | behind _ hf _ _ ih =>
      rw [Wrap.programFree_build] at he
      rw [Program.leaves_append, ih he, Option.bind_some, Program.leaves_singleton] <;>
        simp [Instruction.arity, Operation.arity_behind hf]
  | between _ hf _ _ ihl ihr =>
      simp only [Expression.programFree, Bool.and_eq_true] at he
      rw [Program.leaves_append, Program.leaves_append, ihl he.1, Option.bind_some, ihr he.2,
        Option.bind_some, Program.leaves_singleton] <;>
        simp [Instruction.arity, Operation.arity_between hf]

theorem uses (hleading : ∀ op ∈ g.leading, g.Has (.leading op))
    (htrailing : ∀ op ∈ g.trailing, g.Has (.trailing op)) (h : Postfix g e p)
    (he : e.programFree = true) : p.Uses g := by
  induction h with
  | value | literal => simp [Program.Uses]
  | program => cases he
  | leading hop ho _ ih =>
      rw [Wrap.programFree_build] at he
      exact Program.uses_append.mpr
        ⟨ih he, Program.uses_operation.mpr ⟨hleading _ hop, ho, rfl⟩⟩
  | behind hop _ hc _ ih =>
      rw [Wrap.programFree_build] at he
      exact Program.uses_append.mpr
        ⟨ih he, Program.uses_operation.mpr ⟨htrailing _ hop, rfl, hc⟩⟩
  | between hop hf _ _ ihl ihr =>
      simp only [Expression.programFree, Bool.and_eq_true] at he
      have hc := Trailing.closesGroup_between hf
      exact Program.uses_append.mpr ⟨Program.uses_append.mpr ⟨ihl he.1, ihr he.2⟩,
        Program.uses_operation.mpr ⟨htrailing _ hop, rfl, hc⟩⟩

theorem of_toProgram (h : e.toProgram calculator = .ok p) : Postfix calculator e p := by
  obtain ⟨q, hq⟩ := exists_calculator e
  obtain rfl := Except.ok.inj (h.symm.trans hq.toProgram)
  exact hq

theorem complete_calculator (h : Postfix calculator e p) (he : e.programFree = true) :
    p.Complete calculator := by
  have hleading : ∀ op ∈ calculator.leading, calculator.Has (.leading op) := by
    simp only [Grammar.Has]
    decide
  have htrailing : ∀ op ∈ calculator.trailing, calculator.Has (.trailing op) := by
    simp only [Grammar.Has]
    decide
  exact ⟨h.uses hleading htrailing he, h.leaves he 0⟩

end Postfix

theorem Program.Complete.exists_postfix {g : Grammar} {p : Program} (h : p.Complete g) :
    ∃ e, Postfix g e p ∧ e.programFree = true := by
  obtain ⟨stack, hw, hlen⟩ := Writes.nil.run h.uses h.leaves
  obtain ⟨e, rfl⟩ := List.length_eq_one_iff.mp hlen
  exact ⟨e, hw.of_singleton⟩

theorem complete_programs_read_uniquely :
    (∀ p : Program, p.Complete calculator →
      ∃! e : Expression, e.programFree = true ∧ e.toProgram calculator = .ok p) ∧
    ∀ e : Expression, e.programFree = true →
      ∃ p, e.toProgram calculator = .ok p ∧ p.Complete calculator := by
  constructor
  · intro p h
    obtain ⟨e, hp, hf⟩ := h.exists_postfix
    refine ⟨e, ⟨hf, hp.toProgram⟩, ?_⟩
    rintro e' ⟨hf', hp'⟩
    exact (Postfix.of_toProgram hp').unique hp hf' hf
  · intro e hf
    obtain ⟨p, hp⟩ := Postfix.exists_calculator e
    exact ⟨p, hp.toProgram, hp.complete_calculator hf⟩

end InfixArithmetic

import InfixArithmetic.Proofs.CalculatorPrograms

/-!
Expressions assembled from postfix programs.  On a stack of expressions a program makes again the
one it was written for, so two expressions without programs inside them differ in their programs.
-/

namespace InfixArithmetic

def Operation.assemble : Operation → List Expression → Option (List Expression)
  | .leading op, e :: stack => some (op.wrap.build e :: stack)
  | .leading _, [] => none
  | .trailing op, stack =>
      match op.form, stack with
      | .behind wrap, e :: stack => some (wrap.build e :: stack)
      | .between _ f, right :: left :: stack => some (.binary f left right :: stack)
      | _, _ => none

def Instruction.assemble : Instruction → List Expression → Option (List Expression)
  | .value word, stack => some (.value word :: stack)
  | .literal x, stack => some (.literal x :: stack)
  | .operation op, stack => op.assemble stack

namespace Program

def assemble : Program → List Expression → Option (List Expression)
  | [], stack => some stack
  | i :: rest, stack => (i.assemble stack).bind (assemble rest)

theorem assemble_append (p q : Program) (stack : List Expression) :
    assemble (p ++ q) stack = (assemble p stack).bind (assemble q) := by
  induction p generalizing stack with
  | nil => rfl
  | cons i p ih =>
      simp only [List.cons_append, assemble]
      cases i.assemble stack with
      | none => rfl
      | some next => exact ih next

theorem assemble_singleton (i : Instruction) (stack : List Expression) :
    assemble [i] stack = i.assemble stack := by
  simp only [assemble]
  cases i.assemble stack <;> rfl

end Program

namespace Postfix

variable {g : Grammar} {e e' : Expression} {p : Program}

theorem assemble (h : Postfix g e p) (he : e.programFree = true) (stack : List Expression) :
    p.assemble stack = some (e :: stack) := by
  induction h generalizing stack with
  | value word => rfl
  | literal x => rfl
  | program p => cases he
  | leading _ _ _ ih =>
      rw [Wrap.programFree_build] at he
      rw [Program.assemble_append, ih he, Option.bind_some, Program.assemble_singleton]
      rfl
  | behind _ hf _ _ ih =>
      rw [Wrap.programFree_build] at he
      rw [Program.assemble_append, ih he, Option.bind_some, Program.assemble_singleton]
      simp [Instruction.assemble, Operation.assemble, hf]
  | between _ hf _ _ ihl ihr =>
      simp only [Expression.programFree, Bool.and_eq_true] at he
      rw [Program.assemble_append, Program.assemble_append, ihl he.1, Option.bind_some, ihr he.2,
        Option.bind_some, Program.assemble_singleton]
      simp [Instruction.assemble, Operation.assemble, hf]

theorem unique (h : Postfix g e p) (h' : Postfix g e' p) (he : e.programFree = true)
    (he' : e'.programFree = true) : e = e' := by
  have hstack := (h.assemble he []).symm.trans (h'.assemble he' [])
  exact (List.cons.inj (Option.some.inj hstack)).1

end Postfix

end InfixArithmetic

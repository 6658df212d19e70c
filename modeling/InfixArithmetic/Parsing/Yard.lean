import InfixArithmetic.Grammar
import InfixArithmetic.Program

/-!
Reading an expression into a postfix program with a stack of pending operations, which wait there
until an operation comes that binds no tighter.
-/

namespace InfixArithmetic

variable {W J : Type}

def Operation.yieldsTo (pending : Operation W J) (next : Trailing W J) : Bool :=
  if pending.opensGroup then false
  else
    match next.form with
    | .between .left _ => next.priority ≤ pending.priority
    | .between .right _ | .behind _ => next.priority < pending.priority

theorem Operation.yieldsTo_of_opensGroup {p : Operation W J} (hp : p.opensGroup = true)
    (next : Trailing W J) : p.yieldsTo next = false := by
  simp [yieldsTo, hp]

/-- The latest operation and the latest instruction come first. -/
structure Yard (W : Type := Wrap) (J : Type := BinaryOperator) where
  expecting : Bool := true
  pending : List (Operation W J) := []
  emitted : Program W J := []
  deriving DecidableEq

namespace Yard

def emit (y : Yard W J) (i : Instruction W J) : Yard W J :=
  { y with emitted := i :: y.emitted }

def push (y : Yard W J) (op : Operation W J) : Yard W J :=
  { y with pending := op :: y.pending, expecting := true }

/-- Emits the pending operations down to the first that stays. -/
def flushWhile (leaves : Operation W J → Bool) (y : Yard W J) : Yard W J :=
  { y with
    pending := y.pending.dropWhile leaves
    emitted := (y.pending.takeWhile leaves).reverse.map .operation ++ y.emitted }

theorem flushWhile_append {leaves : Operation W J → Bool} {y : Yard W J}
    {ops kept : List (Operation W J)}
    (hp : y.pending = ops ++ kept) (ho : ∀ p ∈ ops, leaves p = true)
    (hk : ∀ p, kept.head? = some p → leaves p = false) :
    y.flushWhile leaves =
      { y with pending := kept, emitted := ops.reverse.map .operation ++ y.emitted } := by
  have ht : kept.takeWhile leaves = [] ∧ kept.dropWhile leaves = kept := by
    cases kept with
    | nil => exact ⟨rfl, rfl⟩
    | cons p kept => simp [hk p rfl]
  simp [flushWhile, hp, List.takeWhile_append_of_pos ho, List.dropWhile_append_of_pos ho, ht]

theorem exists_flushWhile (leaves : Operation W J → Bool) (y : Yard W J) :
    ∃ ops kept, y.pending = ops ++ kept ∧ (∀ p ∈ ops, leaves p = true) ∧
      (∀ p, kept.head? = some p → leaves p = false) ∧
      y.flushWhile leaves =
        { y with pending := kept, emitted := ops.reverse.map .operation ++ y.emitted } := by
  refine ⟨y.pending.takeWhile leaves, y.pending.dropWhile leaves, ?_, ?_, ?_, rfl⟩
  · exact List.takeWhile_append_dropWhile.symm
  · exact List.all_eq_true.mp List.all_takeWhile
  · intro p hp
    have h := List.head?_dropWhile_not leaves y.pending
    simpa [hp] using h

/-- Emits the pending operations of the innermost group and drops the group. -/
def close (y : Yard W J) : Except SyntaxError (Yard W J) :=
  let flushed := y.flushWhile (!·.opensGroup)
  match flushed.pending with
  | [] => .error .unmatchedParentheses
  | _ :: outer => .ok { flushed with pending := outer }

def readOperand (y : Yard W J) (g : Grammar W J) (word : String) : Except SyntaxError (Yard W J) :=
  match g.readOperand word with
  | .error cause => .error cause
  | .ok none => .ok { y.emit (.value word) with expecting := false }
  | .ok (some op) => .ok (y.push (.leading op))

def readOperation (y : Yard W J) (g : Grammar W J) (word : String) :
    Except SyntaxError (Yard W J) :=
  match g.readOperation word with
  | .error cause => .error cause
  | .ok op =>
      if op.closesGroup then y.close
      else
        let flushed := y.flushWhile (·.yieldsTo op)
        match op.form with
        | .behind _ => .ok (flushed.emit (.operation (.trailing op)))
        | .between _ _ => .ok (flushed.push (.trailing op))

def read (y : Yard W J) (g : Grammar W J) (word : String) : Except SyntaxError (Yard W J) :=
  if y.expecting then y.readOperand g word else y.readOperation g word

/-- Reads the words up to the first fault, and returns those behind it. -/
def readAll (g : Grammar W J) :
    Yard W J → List String → Except SyntaxError (Yard W J) × List String
  | y, [] => (.ok y, [])
  | y, word :: rest =>
      match y.read g word with
      | .error cause => (.error cause, rest)
      | .ok next => readAll g next rest

def isUntouched (y : Yard W J) : Bool :=
  y.pending.isEmpty && y.emitted.isEmpty

def finish (y : Yard W J) : Except SyntaxError (Program W J) :=
  if y.expecting && !y.isUntouched then .error .unexpectedEnd
  else if y.pending.any (·.opensGroup) then .error .unmatchedParentheses
  else .ok (y.emitted.reverse ++ y.pending.map .operation)

/-- A text without words has no program. -/
def parse (g : Grammar W J) (words : List String) :
    Except SyntaxError (Option (Program W J)) × List String :=
  match readAll g {} words with
  | (.error cause, rest) => (.error cause, rest)
  | (.ok y, rest) => (y.finish.map fun p => if p.isEmpty then none else some p, rest)

theorem parse_fst (g : Grammar W J) (words : List String) :
    (parse g words).1 =
      ((readAll g {} words).1.bind finish).map fun p => if p.isEmpty then none else some p := by
  rw [parse]
  generalize readAll g {} words = o
  obtain ⟨r, rest⟩ := o
  cases r <;> rfl

end Yard

end InfixArithmetic

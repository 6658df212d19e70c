import InfixArithmetic.Proofs.Precedence
import InfixArithmetic.Proofs.Visits
import Mathlib.Data.List.Forall2

/-!
Serialization through any grammar.  A program is the postfix order of the expression with every
operator looked up (`toProgram_eq_mapM`).  A visit that goes on past an operator which the grammar
lacks, and keeps the first fault that it met, comes to the same program or the same fault
(`visit_collecting`): that of the first operator, in postfix order, that is not registered.
-/

namespace InfixArithmetic

inductive Operator where
  | binary (f : BinaryOperator)
  | unary (f : UnaryOperator)
  deriving DecidableEq

namespace Operator

def symbol : Operator → String
  | .binary f => f.symbol
  | .unary f => f.symbol

def leads : Operator → Bool
  | .binary _ => false
  | .unary f => f.leads

def missing (o : Operator) : SyntaxError :=
  if o.leads then .unknownLeadingOperation o.symbol else .unknownOperation o.symbol

end Operator

variable {W J : Type}

/-- What stands in a postfix order: an instruction that is there already, or an operator. -/
inductive Item (W J : Type) where
  | instruction (i : Instruction W J)
  | operator (o : Operator)
  deriving DecidableEq

namespace Item

def operator? : Item W J → Option Operator
  | .instruction _ => none
  | .operator o => some o

theorem operator?_instruction (i : Instruction W J) : operator? (.instruction i) = none := rfl

theorem operator?_operator (o : Operator) :
    operator? (.operator o : Item W J) = some o := rfl

end Item

namespace Expression

def postorder : Expression W J → List (Item W J)
  | .value word => [.instruction (.value word)]
  | .literal x => [.instruction (.literal x)]
  | .binary f left right => left.postorder ++ right.postorder ++ [.operator (.binary f)]
  | .unary f operand => operand.postorder ++ [.operator (.unary f)]
  | .program p => p.map .instruction

/-- Those outside of programs, in postfix order. -/
def operators : Expression W J → List Operator
  | .value _ | .literal _ | .program _ => []
  | .binary f left right => left.operators ++ right.operators ++ [.binary f]
  | .unary f operand => operand.operators ++ [.unary f]

theorem filterMap_postorder (e : Expression W J) :
    e.postorder.filterMap Item.operator? = e.operators := by
  induction e with
  | value word => rfl
  | literal x => rfl
  | binary f left right ihl ihr =>
      simp only [postorder, operators, List.filterMap_append, ihl, ihr]
      rfl
  | unary f operand ih =>
      simp only [postorder, operators, List.filterMap_append, ih]
      rfl
  | program p => simp [postorder, operators, Item.operator?, List.filterMap_map, Function.comp_def]

end Expression

namespace Grammar

variable {g : Grammar W J}

/-- There is an operation of the operator's symbol in the table of its place. -/
def Registers (g : Grammar W J) (o : Operator) : Prop :=
  if o.leads then ∃ op ∈ g.leading, op.name = o.symbol else ∃ op ∈ g.trailing, op.name = o.symbol

def operation? (g : Grammar W J) : Operator → Option (Operation W J)
  | .binary f => g.binary? f
  | .unary f => g.unary? f

def resolve (g : Grammar W J) : Item W J → Except SyntaxError (Instruction W J)
  | .instruction i => .ok i
  | .operator o =>
      match g.operation? o with
      | some op => .ok (.operation op)
      | none => .error o.missing

inductive Becomes (g : Grammar W J) : Item W J → Instruction W J → Prop
  | instruction (i : Instruction W J) : Becomes g (.instruction i) i
  | operator {o : Operator} {op : Operation W J} (h : g.operation? o = some op) :
      Becomes g (.operator o) (.operation op)

theorem resolve_eq_ok {item : Item W J} {i : Instruction W J} :
    g.resolve item = .ok i ↔ g.Becomes item i := by
  constructor
  · intro h
    cases item with
    | instruction j =>
        obtain rfl : j = i := Except.ok.inj h
        exact .instruction j
    | operator o =>
        simp only [resolve] at h
        split at h
        · rename_i op hop
          obtain rfl := Except.ok.inj h
          exact .operator hop
        · cases h
  · rintro (_ | h)
    · rfl
    · simp [resolve, h]

theorem leading?_isSome {name : String} :
    (g.leading? name).isSome ↔ ∃ op ∈ g.leading, op.name = name := by
  simp [leading?]

theorem trailing?_isSome {name : String} :
    (g.trailing? name).isSome ↔ ∃ op ∈ g.trailing, op.name = name := by
  simp [trailing?]

theorem operation?_isSome {o : Operator} : (g.operation? o).isSome ↔ g.Registers o := by
  cases o with
  | binary f =>
      simp [operation?, binary?, Registers, Operator.leads, Operator.symbol, trailing?_isSome]
  | unary f =>
      cases hf : f.leads <;>
        simp [operation?, unary?, Registers, Operator.leads, Operator.symbol, hf, leading?_isSome,
          trailing?_isSome]

theorem binaryInstruction_eq (f : BinaryOperator) :
    g.binaryInstruction f = g.resolve (.operator (.binary f)) := by
  simp only [binaryInstruction, getTrailing, resolve, operation?, binary?]
  cases g.trailing? f.symbol <;> rfl

theorem unaryInstruction_eq (f : UnaryOperator) :
    g.unaryInstruction f = g.resolve (.operator (.unary f)) := by
  simp only [unaryInstruction, getLeading, getTrailing, resolve, operation?, unary?,
    Operator.missing]
  cases hf : f.leads with
  | true => cases g.leading? f.symbol <;> simp [Except.map, Operator.leads, hf, Operator.symbol]
  | false => cases g.trailing? f.symbol <;> simp [Except.map, Operator.leads, hf, Operator.symbol]

def lacks (g : Grammar W J) (o : Operator) : Bool :=
  (g.operation? o).isNone

theorem lacks_iff {o : Operator} : g.lacks o = true ↔ ¬ g.Registers o := by
  rw [lacks, ← operation?_isSome]
  cases g.operation? o <;> simp

theorem find?_lacks_eq_some {operators : List Operator} {o : Operator} :
    operators.find? g.lacks = some o ↔ ¬ g.Registers o ∧ ∃ before behind,
      operators = before ++ o :: behind ∧ ∀ other ∈ before, g.Registers other := by
  simp [List.find?_eq_some_iff_append, ← Bool.not_eq_true, lacks_iff]

section

variable {items : List (Item W J)} {p : Program W J} {cause : SyntaxError}

theorem mapM_resolve_eq_ok : items.mapM g.resolve = .ok p ↔ List.Forall₂ g.Becomes items p := by
  induction items generalizing p with
  | nil => cases p <;> simp [pure, Except.pure]
  | cons item items ih =>
      rw [List.mapM_cons]
      cases hi : g.resolve item with
      | error cause => cases p <;> simp [bind, Except.bind, ← resolve_eq_ok, hi]
      | ok i =>
          cases hr : items.mapM g.resolve <;> cases p <;>
            simp [bind, Except.bind, pure, Except.pure, ← resolve_eq_ok, hi, ← ih, hr]

theorem mapM_resolve_eq_error : items.mapM g.resolve = .error cause ↔
    ∃ o, (items.filterMap Item.operator?).find? g.lacks = some o ∧ o.missing = cause := by
  induction items with
  | nil => simp [pure, Except.pure]
  | cons item items ih =>
      rw [List.mapM_cons]
      cases item with
      | instruction i =>
          rw [List.filterMap_cons_none (Item.operator?_instruction i), ← ih]
          cases items.mapM g.resolve <;> simp [bind, Except.bind, pure, Except.pure, resolve]
      | operator o =>
          rw [List.filterMap_cons_some (Item.operator?_operator o), List.find?_cons]
          cases ho : g.operation? o with
          | none => simp [lacks, ho, resolve, bind, Except.bind]
          | some op =>
              simp only [lacks, ho, resolve, Option.isNone_some]
              rw [← ih]
              cases items.mapM g.resolve <;> simp [bind, Except.bind, pure, Except.pure]

end

end Grammar

theorem Expression.toProgram_eq_mapM (g : Grammar W J) (e : Expression W J) :
    e.toProgram g = e.postorder.mapM g.resolve := by
  induction e with
  | value word => rfl
  | literal x => rfl
  | binary f left right ihl ihr =>
      simp only [toProgram, postorder, List.mapM_append, ihl, ihr, Grammar.binaryInstruction_eq]
      simp
  | unary f operand ih =>
      simp only [toProgram, postorder, List.mapM_append, ih, Grammar.unaryInstruction_eq]
      simp
  | program p =>
      refine (Grammar.mapM_resolve_eq_ok.mpr ?_).symm
      exact List.forall₂_map_left_iff.mpr (List.forall₂_same.mpr fun i _ => .instruction i)

structure Collector (W J : Type) where
  collected : Program W J := []
  fault : Option SyntaxError := none

namespace Collector

def emit (c : Collector W J) (p : Program W J) : Collector W J :=
  { c with collected := c.collected ++ p }

/-- Goes on past a fault, and notes it only if there was none before. -/
def push (c : Collector W J) : Except SyntaxError (Instruction W J) → Collector W J
  | .ok i => c.emit [i]
  | .error cause => { c with fault := c.fault.or (some cause) }

def result (c : Collector W J) : Except SyntaxError (Program W J) :=
  match c.fault with
  | some cause => .error cause
  | none => .ok c.collected

theorem result_push_ok (c : Collector W J) (i : Instruction W J) :
    (c.push (.ok i)).result = c.result.map (· ++ [i]) := by
  obtain ⟨p, fault⟩ := c
  cases fault <;> rfl

theorem result_push_error (c : Collector W J) (cause : SyntaxError) :
    (c.push (.error cause)).result = c.result.bind fun _ => .error cause := by
  obtain ⟨p, fault⟩ := c
  cases fault <;> rfl

def pushAll (g : Grammar W J) (c : Collector W J) (items : List (Item W J)) : Collector W J :=
  items.foldl (fun c item => c.push (g.resolve item)) c

theorem pushAll_append (g : Grammar W J) (c : Collector W J) (items more : List (Item W J)) :
    c.pushAll g (items ++ more) = (c.pushAll g items).pushAll g more :=
  List.foldl_append

theorem pushAll_instructions (g : Grammar W J) (c : Collector W J) (p : Program W J) :
    c.pushAll g (p.map .instruction) = c.emit p := by
  induction p generalizing c with
  | nil => simp [pushAll, emit]
  | cons i p ih =>
      rw [List.map_cons, pushAll, List.foldl_cons, ← pushAll, ih]
      simp [Grammar.resolve, push, emit]

/-- The fault of a collector is that of its first item that has one. -/
theorem result_pushAll (g : Grammar W J) (c : Collector W J) (items : List (Item W J)) :
    (c.pushAll g items).result = c.result.bind fun p => (items.mapM g.resolve).map (p ++ ·) := by
  induction items generalizing c with
  | nil =>
      change c.result = _
      cases c.result <;> simp [Except.bind, Except.map, pure, Except.pure]
  | cons item items ih =>
      rw [pushAll, List.foldl_cons, ← pushAll, ih, List.mapM_cons]
      cases g.resolve item with
      | ok i =>
          rw [result_push_ok]
          cases c.result <;> cases items.mapM g.resolve <;>
            simp [bind, Except.bind, Except.map, pure, Except.pure]
      | error cause =>
          rw [result_push_error]
          cases c.result <;> rfl

end Collector

def Visitor.collecting (g : Grammar W J) : Visitor W J (Collector W J → Collector W J) where
  value word c := c.emit [.value word]
  literal x c := c.emit [.literal x]
  binary f left right c := (right (left c)).push (g.binaryInstruction f)
  unary f operand c := (operand c).push (g.unaryInstruction f)
  program p c := c.emit p

namespace Expression

variable {g : Grammar W J}

theorem visit_collecting (e : Expression W J) (c : Collector W J) :
    e.visit (.collecting g) c = c.pushAll g e.postorder := by
  induction e generalizing c with
  | value word => rfl
  | literal x => rfl
  | binary f left right ihl ihr =>
      rw [postorder, Collector.pushAll_append, Collector.pushAll_append, ← ihl, ← ihr]
      change Collector.push _ (g.binaryInstruction f) = _
      rw [Grammar.binaryInstruction_eq]
      rfl
  | unary f operand ih =>
      rw [postorder, Collector.pushAll_append, ← ih]
      change Collector.push _ (g.unaryInstruction f) = _
      rw [Grammar.unaryInstruction_eq]
      rfl
  | program p => exact (c.pushAll_instructions g p).symm

theorem toProgram_eq_ok {e : Expression W J} {p : Program W J} :
    e.toProgram g = .ok p ↔ List.Forall₂ g.Becomes e.postorder p := by
  rw [toProgram_eq_mapM, Grammar.mapM_resolve_eq_ok]

theorem toProgram_eq_error {e : Expression W J} {cause : SyntaxError} :
    e.toProgram g = .error cause ↔ ∃ o, e.operators.find? g.lacks = some o ∧ o.missing = cause := by
  rw [toProgram_eq_mapM, Grammar.mapM_resolve_eq_error, filterMap_postorder]

theorem exists_program_iff {e : Expression W J} :
    (∃ p, e.toProgram g = .ok p) ↔ ∀ o ∈ e.operators, g.Registers o := by
  have hfind : (∀ o ∈ e.operators, g.Registers o) ↔ e.operators.find? g.lacks = none := by
    simp only [List.find?_eq_none, Grammar.lacks_iff, not_not]
  rw [hfind]
  cases hp : e.toProgram g with
  | ok p =>
      simp only [Except.ok.injEq, exists_eq', true_iff]
      by_contra hne
      obtain ⟨o, ho⟩ := Option.ne_none_iff_exists'.mp hne
      cases hp.symm.trans (toProgram_eq_error.mpr ⟨o, ho, rfl⟩)
  | error cause =>
      obtain ⟨o, ho, -⟩ := toProgram_eq_error.mp hp
      simp [ho]

end Expression

theorem programs_fail_at_the_first_missing_operator (g : Grammar W J) (e : Expression W J) :
    (e.visit (.collecting g) {}).result = e.toProgram g ∧
      ((∃ p, e.toProgram g = .ok p) ↔ ∀ o ∈ e.operators, g.Registers o) ∧
      (∀ p, e.toProgram g = .ok p ↔ List.Forall₂ g.Becomes e.postorder p) ∧
      ∀ cause, e.toProgram g = .error cause ↔
        ∃ before o behind, e.operators = before ++ o :: behind ∧
          (∀ other ∈ before, g.Registers other) ∧ ¬ g.Registers o ∧ cause = o.missing := by
  refine ⟨?_, e.exists_program_iff, fun p => Expression.toProgram_eq_ok, fun cause => ?_⟩
  · rw [Expression.visit_collecting, Collector.result_pushAll, ← Expression.toProgram_eq_mapM]
    change (e.toProgram g).map ([] ++ ·) = _
    cases e.toProgram g <;> rfl
  · rw [Expression.toProgram_eq_error]
    constructor
    · rintro ⟨o, ho, rfl⟩
      obtain ⟨hmissing, before, behind, hsplit, hbefore⟩ := Grammar.find?_lacks_eq_some.mp ho
      exact ⟨before, o, behind, hsplit, hbefore, hmissing, rfl⟩
    · rintro ⟨before, o, behind, hsplit, hbefore, hmissing, rfl⟩
      exact ⟨o, Grammar.find?_lacks_eq_some.mpr ⟨hmissing, before, behind, hsplit, hbefore⟩, rfl⟩

example :
    (Expression.binary .add (.unary .factorial (.literal 3.0))
      (.unary .sine (.literal 30.0))).toProgram (.empty : Grammar) =
        .error (.unknownOperation "!") := by
  rfl

end InfixArithmetic

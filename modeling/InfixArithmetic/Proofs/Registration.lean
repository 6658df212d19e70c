import InfixArithmetic.Evaluation
import InfixArithmetic.Token

/-!
Registration of operations.  A grammar made from a list keeps the last operation of every slot, a
name in one table or the other, and only that (`get?_ofList`).  Readings ask a grammar for nothing
but its look-ups (`Alike`), so lists that differ in the order of different slots read texts alike.
-/

namespace InfixArithmetic

variable {W J : Type}

structure Slot where
  leads : Bool
  name : String
  deriving DecidableEq

namespace Operation

def slot (op : Operation W J) : Slot :=
  ⟨op.leads, op.name⟩

theorem slot_leading {op : Leading W} {name : String} :
    (Operation.leading op : Operation W J).slot = ⟨true, name⟩ ↔ op.name = name := by
  simp [slot, leads, Operation.name]

theorem slot_trailing {op : Trailing W J} {name : String} :
    (Operation.trailing op).slot = ⟨false, name⟩ ↔ op.name = name := by
  simp [slot, leads, Operation.name]

/-- No operation behind it takes its slot. -/
def LastIn (operations : List (Operation W J)) (op : Operation W J) : Prop :=
  ∃ before behind, operations = before ++ op :: behind ∧ ∀ other ∈ behind, other.slot ≠ op.slot

end Operation

def inSlot (slot : Slot) (operations : List (Operation W J)) : List (Operation W J) :=
  operations.filter (·.slot = slot)

theorem inSlot_cons (slot : Slot) (op : Operation W J) (operations : List (Operation W J)) :
    inSlot slot (op :: operations) =
      if op.slot = slot then op :: inSlot slot operations else inSlot slot operations := by
  simp [inSlot, List.filter_cons]

theorem inSlot_append (slot : Slot) (operations more : List (Operation W J)) :
    inSlot slot (operations ++ more) = inSlot slot operations ++ inSlot slot more :=
  List.filter_append ..

theorem inSlot_eq_nil {slot : Slot} {operations : List (Operation W J)} :
    inSlot slot operations = [] ↔ ∀ op ∈ operations, op.slot ≠ slot := by
  simp [inSlot]

theorem getLast?_inSlot {slot : Slot} {operations : List (Operation W J)} {op : Operation W J} :
    (inSlot slot operations).getLast? = some op ↔ op.slot = slot ∧ op.LastIn operations := by
  constructor
  · intro h
    obtain ⟨earlier, hlast⟩ := List.getLast?_eq_some_iff.mp h
    obtain ⟨before, rest, rfl, -, hrest⟩ := List.filter_eq_append_iff.mp hlast
    obtain ⟨between, behind, rfl, -, hop, hbehind⟩ := List.filter_eq_cons_iff.mp hrest
    obtain rfl : op.slot = slot := by simpa using hop
    exact ⟨rfl, before ++ between, behind, by simp, inSlot_eq_nil.mp hbehind⟩
  · rintro ⟨rfl, before, behind, rfl, hbehind⟩
    rw [inSlot_append, inSlot_cons, if_pos rfl, inSlot_eq_nil.mpr hbehind]
    simp

/-- Rearrangements that never move two operations of one slot past each other. -/
inductive Reordered : List (Operation W J) → List (Operation W J) → Prop
  | nil : Reordered [] []
  | cons (op : Operation W J) {operations others : List (Operation W J)}
      (h : Reordered operations others) :
      Reordered (op :: operations) (op :: others)
  | swap {p q : Operation W J} (h : p.slot ≠ q.slot) (operations : List (Operation W J)) :
      Reordered (p :: q :: operations) (q :: p :: operations)
  | trans {first second third : List (Operation W J)} (h : Reordered first second)
      (h' : Reordered second third) : Reordered first third

namespace Reordered

variable {operations others : List (Operation W J)}

theorem refl (operations : List (Operation W J)) : Reordered operations operations := by
  induction operations with
  | nil => exact .nil
  | cons op operations ih => exact .cons op ih

theorem inSlot (h : Reordered operations others) (slot : Slot) :
    inSlot slot operations = inSlot slot others := by
  induction h with
  | nil => rfl
  | cons op _ ih => rw [inSlot_cons, inSlot_cons, ih]
  | @swap p q h operations =>
      simp only [inSlot_cons]
      by_cases hp : p.slot = slot
      · have hq : q.slot ≠ slot := fun hq => h (hp.trans hq.symm)
        simp [hp, hq]
      · simp [hp]
  | trans _ _ ih ih' => exact ih.trans ih'

theorem move {op : Operation W J} {before : List (Operation W J)}
    (h : ∀ other ∈ before, other.slot ≠ op.slot) (behind : List (Operation W J)) :
    Reordered (op :: before ++ behind) (before ++ op :: behind) := by
  induction before with
  | nil => exact .refl _
  | cons other before ih =>
      have hother := (List.forall_mem_cons.mp h).1.symm
      exact (Reordered.swap hother _).trans (.cons other (ih (List.forall_mem_cons.mp h).2))

/-- They are all the lists with the same operations in every slot, in the same order. -/
theorem iff_inSlot :
    Reordered operations others ↔ ∀ slot, InfixArithmetic.inSlot slot operations =
      InfixArithmetic.inSlot slot others := by
  refine ⟨inSlot, fun h => ?_⟩
  induction operations generalizing others with
  | nil =>
      cases others with
      | nil => exact .nil
      | cons op others =>
          have hop := h op.slot
          rw [inSlot_cons, if_pos rfl] at hop
          cases hop
  | cons op operations ih =>
      have hop := (h op.slot).symm
      rw [inSlot_cons, if_pos rfl] at hop
      -- the first operation of its slot on the other side, behind operations of other slots
      obtain ⟨before, behind, rfl, hbefore, -, -⟩ := List.filter_eq_cons_iff.mp hop
      have hmove : Reordered (op :: before ++ behind) (before ++ op :: behind) :=
        move (by simpa using hbefore) behind
      refine .trans (.cons op (ih fun slot => ?_)) hmove
      have hslot := (h slot).trans (hmove.inSlot slot).symm
      rw [List.cons_append, inSlot_cons, inSlot_cons] at hslot
      split at hslot
      · exact (List.cons.inj hslot).2
      · exact hslot

end Reordered

namespace Grammar

def get? (g : Grammar W J) (slot : Slot) : Option (Operation W J) :=
  if slot.leads then (g.leading? slot.name).map .leading else (g.trailing? slot.name).map .trailing

theorem get?_add (g : Grammar W J) (op : Operation W J) (slot : Slot) :
    (g.add op).get? slot = if op.slot = slot then some op else g.get? slot := by
  obtain ⟨leads, name⟩ := slot
  cases op with
  | leading op =>
      cases leads with
      | true =>
          simp only [get?, if_true, leading?_add, Operation.slot_leading]
          split <;> rfl
      | false => simp [get?, Operation.slot, Operation.leads, add, trailing?]
  | trailing op =>
      cases leads with
      | true => simp [get?, Operation.slot, Operation.leads, add, leading?]
      | false =>
          simp only [get?, Bool.false_eq_true, if_false, trailing?_add, Operation.slot_trailing]
          split <;> rfl

theorem get?_foldl_add (operations : List (Operation W J)) (g : Grammar W J) (slot : Slot) :
    (operations.foldl add g).get? slot = (inSlot slot operations).getLast?.or (g.get? slot) := by
  induction operations generalizing g with
  | nil => rfl
  | cons op operations ih =>
      rw [List.foldl_cons, ih, get?_add, inSlot_cons]
      split
      · rw [List.getLast?_cons]
        cases (inSlot slot operations).getLast? <;> rfl
      · rfl

theorem get?_ofList (operations : List (Operation W J)) (slot : Slot) :
    (ofList operations).get? slot = (inSlot slot operations).getLast? := by
  rw [ofList, get?_foldl_add]
  cases slot.leads <;> simp [get?, empty, leading?, trailing?]

section

variable {operations : List (Operation W J)} {name : String}

theorem get?_ofList_eq_some {slot : Slot} {op : Operation W J} :
    (ofList operations).get? slot = some op ↔ op.slot = slot ∧ op.LastIn operations := by
  rw [get?_ofList, getLast?_inSlot]

theorem get?_ofList_eq_none {slot : Slot} :
    (ofList operations).get? slot = none ↔ ∀ op ∈ operations, op.slot ≠ slot := by
  rw [get?_ofList, List.getLast?_eq_none_iff, inSlot_eq_nil]

theorem leading?_ofList {op : Leading W} : (ofList operations).leading? name = some op ↔
    op.name = name ∧ (Operation.leading op).LastIn operations := by
  rw [← Operation.slot_leading, ← get?_ofList_eq_some]
  simp [get?]

theorem trailing?_ofList {op : Trailing W J} : (ofList operations).trailing? name = some op ↔
    op.name = name ∧ (Operation.trailing op).LastIn operations := by
  rw [← Operation.slot_trailing, ← get?_ofList_eq_some]
  simp [get?]

theorem leading?_ofList_eq_none :
    (ofList operations).leading? name = none ↔ ∀ op ∈ operations, op.slot ≠ ⟨true, name⟩ := by
  rw [← get?_ofList_eq_none]
  simp [get?]

theorem trailing?_ofList_eq_none :
    (ofList operations).trailing? name = none ↔ ∀ op ∈ operations, op.slot ≠ ⟨false, name⟩ := by
  rw [← get?_ofList_eq_none]
  simp [get?]

theorem getLeading_eq_ok {g : Grammar W J} {op : Leading W} :
    g.getLeading name = .ok op ↔ g.leading? name = some op := by
  simp only [getLeading]
  cases g.leading? name <;> simp

theorem getTrailing_eq_ok {g : Grammar W J} {op : Trailing W J} :
    g.getTrailing name = .ok op ↔ g.trailing? name = some op := by
  simp only [getTrailing]
  cases g.trailing? name <;> simp

theorem getLeading_eq_error {g : Grammar W J} {cause : SyntaxError} :
    g.getLeading name = .error cause ↔
    cause = .unknownLeadingOperation name ∧ g.leading? name = none := by
  simp only [getLeading]
  cases g.leading? name <;> simp [eq_comm]

theorem getTrailing_eq_error {g : Grammar W J} {cause : SyntaxError} :
    g.getTrailing name = .error cause ↔
      cause = .unknownOperation name ∧ g.trailing? name = none := by
  simp only [getTrailing]
  cases g.trailing? name <;> simp [eq_comm]

theorem get?_ofList_isSome {slot : Slot} :
    ((ofList operations).get? slot).isSome ↔ ∃ op ∈ operations, op.slot = slot := by
  rw [Option.isSome_iff_ne_none, Ne, get?_ofList_eq_none]
  simp

theorem knows_eq (g : Grammar W J) (word : String) :
    g.knows word = ((g.get? ⟨false, word⟩).isSome || (g.get? ⟨true, word⟩).isSome) := by
  simp [knows, get?]

theorem knows_ofList {word : String} :
    (ofList operations).knows word = true ↔ ∃ op ∈ operations, op.name = word := by
  rw [knows_eq, Bool.or_eq_true, get?_ofList_isSome, get?_ofList_isSome]
  constructor
  · rintro (⟨op, hop, hslot⟩ | ⟨op, hop, hslot⟩) <;> exact ⟨op, hop, congrArg Slot.name hslot⟩
  · rintro ⟨op, hop, rfl⟩
    cases hl : op.leads with
    | true => exact .inr ⟨op, hop, by rw [Operation.slot, hl]⟩
    | false => exact .inl ⟨op, hop, by rw [Operation.slot, hl]⟩

theorem token_ofList {word : String} :
    (ofList operations).token word = .operation word ↔ ∃ op ∈ operations, op.name = word := by
  rw [← knows_ofList, token]
  cases (ofList operations).knows word <;> simp

end

structure Distinct (g : Grammar W J) : Prop where
  leading : (g.leading.map Leading.name).Nodup
  trailing : (g.trailing.map Trailing.name).Nodup

theorem Distinct.add {g : Grammar W J} (h : g.Distinct) (op : Operation W J) :
    (g.add op).Distinct := by
  cases op with
  | leading op => exact ⟨nodup_enter _ op h.leading, h.trailing⟩
  | trailing op => exact ⟨h.leading, nodup_enter _ op h.trailing⟩

theorem distinct_ofList (operations : List (Operation W J)) : (ofList operations).Distinct := by
  have hfold (g : Grammar W J) (h : g.Distinct) : (operations.foldl Grammar.add g).Distinct := by
    induction operations generalizing g with
    | nil => exact h
    | cons op operations ih => exact ih _ (h.add op)
  exact hfold empty ⟨.nil, .nil⟩

theorem find?_name_eq_some {α : Type} {name : α → String} {table : List α}
    (h : (table.map name).Nodup) {entry : α} :
    table.find? (name · = name entry) = some entry ↔ entry ∈ table := by
  refine ⟨List.mem_of_find?_eq_some, fun hm => ?_⟩
  induction table with
  | nil => cases hm
  | cons other table ih =>
      rw [List.map_cons, List.nodup_cons] at h
      rcases List.mem_cons.mp hm with rfl | hm
      · simp
      · have hne : name other ≠ name entry := fun he => h.1 (he ▸ List.mem_map_of_mem hm)
        rw [List.find?_cons_of_neg (by simpa using hne), ih h.2 hm]

theorem mem_leading_ofList {operations : List (Operation W J)} {op : Leading W} :
    op ∈ (ofList operations).leading ↔ (Operation.leading op).LastIn operations := by
  rw [← find?_name_eq_some (distinct_ofList operations).leading]
  exact leading?_ofList.trans (and_iff_right rfl)

theorem mem_trailing_ofList {operations : List (Operation W J)} {op : Trailing W J} :
    op ∈ (ofList operations).trailing ↔ (Operation.trailing op).LastIn operations := by
  rw [← find?_name_eq_some (distinct_ofList operations).trailing]
  exact trailing?_ofList.trans (and_iff_right rfl)

/-- Grammars with the same look-ups, whatever their tables look like. -/
structure Alike (g h : Grammar W J) : Prop where
  leading : ∀ name, g.leading? name = h.leading? name
  trailing : ∀ name, g.trailing? name = h.trailing? name

theorem alike_of_reordered {operations others : List (Operation W J)}
    (h : Reordered operations others) :
    (ofList operations).Alike (ofList others) := by
  have hget (slot : Slot) : (ofList operations).get? slot = (ofList others).get? slot := by
    rw [get?_ofList, get?_ofList, Reordered.iff_inSlot.mp h]
  constructor
  · intro name
    exact Option.map_injective (fun _ _ => Operation.leading.inj) (hget ⟨true, name⟩)
  · intro name
    exact Option.map_injective (fun _ _ => Operation.trailing.inj) (hget ⟨false, name⟩)

namespace Alike

variable {g h : Grammar W J} (hg : g.Alike h)
include hg

theorem getLeading (name : String) : g.getLeading name = h.getLeading name := by
  rw [Grammar.getLeading, Grammar.getLeading, hg.leading]

theorem getTrailing (name : String) : g.getTrailing name = h.getTrailing name := by
  rw [Grammar.getTrailing, Grammar.getTrailing, hg.trailing]

theorem knows (word : String) : g.knows word = h.knows word := by
  rw [Grammar.knows, Grammar.knows, hg.leading, hg.trailing]

theorem readOperand (word : String) : g.readOperand word = h.readOperand word := by
  rw [Grammar.readOperand, Grammar.readOperand, hg.knows, hg.getLeading]

theorem readOperation (word : String) : g.readOperation word = h.readOperation word := by
  rw [Grammar.readOperation, Grammar.readOperation, hg.knows, hg.getTrailing]

theorem read (y : Yard W J) (word : String) : y.read g word = y.read h word := by
  simp only [Yard.read, Yard.readOperand, Yard.readOperation, hg.readOperand, hg.readOperation]

theorem readAll (y : Yard W J) (words : List String) :
    Yard.readAll g y words = Yard.readAll h y words := by
  induction words generalizing y with
  | nil => rfl
  | cons word rest ih => simp only [Yard.readAll, hg.read, ih]

variable [Builds W J]

theorem climb (level : Priority → Cursor → Climbing.Outcome W J) (floor : Priority) (count : Nat) :
    Climbing.climb g level floor count = Climbing.climb h level floor count := by
  induction count with
  | zero => rfl
  | succ count ih =>
      funext e c
      simp only [Climbing.climb, hg.readOperation, ih]

theorem operand (level : Priority → Cursor → Climbing.Outcome W J) :
    Climbing.operand g level = Climbing.operand h level := by
  funext c
  simp only [Climbing.operand, hg.readOperand]

theorem expression (count : Nat) : Climbing.expression g count = Climbing.expression h count := by
  induction count with
  | zero => rfl
  | succ count ih =>
      funext floor
      simp only [Climbing.expression, ih, hg.operand, hg.climb]

theorem parse (mode : Mode) (c : Cursor) : mode.parse g c = mode.parse h c := by
  cases mode with
  | normal => simp only [Mode.parse, Climbing.parse, hg.expression]
  | rpn => simp only [Mode.parse, Yard.parse, hg.readAll]

theorem parse_text (mode : Mode) (text : String) :
    InfixArithmetic.parse g mode text = InfixArithmetic.parse h mode text := by
  rw [InfixArithmetic.parse, hg.parse, InfixArithmetic.parse]

theorem evaluateAs (value : Expression W J → Except ArithmeticError Float) (mode : Mode)
    (text : String) : InfixArithmetic.evaluateAs value g mode text =
      InfixArithmetic.evaluateAs value h mode text := by
  simp only [InfixArithmetic.evaluateAs, hg.parse_text]

end Alike

end Grammar

open Grammar (ofList)

variable [Builds W J]

theorem registration_order_matters_within_slots (operations : List (Operation W J)) :
    (∀ name,
      (∀ op, (ofList operations).getLeading name = .ok op ↔
        op.name = name ∧ (Operation.leading op).LastIn operations) ∧
      (∀ cause, (ofList operations).getLeading name = .error cause ↔
        cause = .unknownLeadingOperation name ∧ ∀ op ∈ operations, op.slot ≠ ⟨true, name⟩) ∧
      (∀ op, (ofList operations).getTrailing name = .ok op ↔
        op.name = name ∧ (Operation.trailing op).LastIn operations) ∧
      ∀ cause, (ofList operations).getTrailing name = .error cause ↔
        cause = .unknownOperation name ∧ ∀ op ∈ operations, op.slot ≠ ⟨false, name⟩) ∧
    ((ofList operations).Distinct ∧
      (∀ op, op ∈ (ofList operations).leading ↔ (Operation.leading op).LastIn operations) ∧
      ∀ op, op ∈ (ofList operations).trailing ↔ (Operation.trailing op).LastIn operations) ∧
    (∀ word, (ofList operations).token word = .operation word ↔
      ∃ op ∈ operations, op.name = word) ∧
    ∀ others, Reordered operations others →
      (∀ name, (ofList operations).getLeading name = (ofList others).getLeading name ∧
        (ofList operations).getTrailing name = (ofList others).getTrailing name) ∧
      ∀ mode : Mode,
        (∀ c, mode.parse (ofList operations) c = mode.parse (ofList others) c) ∧
        ∀ text, parse (ofList operations) mode text = parse (ofList others) mode text ∧
          ∀ value : Expression W J → Except ArithmeticError Float,
            evaluateAs value (ofList operations) mode text =
              evaluateAs value (ofList others) mode text := by
  refine ⟨fun name => ⟨fun op => ?_, fun cause => ?_, fun op => ?_, fun cause => ?_⟩,
    ⟨Grammar.distinct_ofList operations, fun op => Grammar.mem_leading_ofList,
      fun op => Grammar.mem_trailing_ofList⟩, fun word => Grammar.token_ofList, fun others h => ?_⟩
  · rw [Grammar.getLeading_eq_ok, Grammar.leading?_ofList]
  · rw [Grammar.getLeading_eq_error, Grammar.leading?_ofList_eq_none]
  · rw [Grammar.getTrailing_eq_ok, Grammar.trailing?_ofList]
  · rw [Grammar.getTrailing_eq_error, Grammar.trailing?_ofList_eq_none]
  · have halike := Grammar.alike_of_reordered h
    exact ⟨fun name => ⟨halike.getLeading name, halike.getTrailing name⟩,
      fun mode => ⟨halike.parse mode,
        fun text => ⟨halike.parse_text mode text, fun value => halike.evaluateAs value mode text⟩⟩⟩

/-- Behind an operand a name means what was registered last, between operands or not. -/
example :
    (ofList [.trailing ⟨"~", 100, .behind Wrap.group⟩,
      .trailing ⟨"~", 100, .between .left BinaryOperator.add⟩]).trailing? "~" =
        some ⟨"~", 100, .between .left .add⟩ ∧
    (ofList [.trailing ⟨"~", 100, .between .left BinaryOperator.add⟩,
      .trailing ⟨"~", 100, .behind Wrap.group⟩]).trailing? "~" =
        some ⟨"~", 100, .behind .group⟩ := by
  decide

end InfixArithmetic

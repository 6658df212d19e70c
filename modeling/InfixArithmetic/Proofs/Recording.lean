import InfixArithmetic.Parsing.Climbing

/-!
Recorded readings.  A recorded reading notes every level as it is opened and as it is closed, and
every operation that it folds with the floor in force.  It is otherwise the plain reading
(`Recorded.outcome_parse`), and what is kept by the pieces of a record is kept by the whole
(`Kept.parse`).
-/

namespace InfixArithmetic

namespace Climbing

structure Folding (W J : Type) where
  floor : Priority
  op : Trailing W J

inductive Event (W J : Type) where
  | opened
  | closed
  | folded (f : Folding W J)

/-- An outcome with the events on the way to it, in their order. -/
structure Recorded (W J α : Type) where
  outcome : Except SyntaxError α × Cursor
  events : List (Event W J) := []

variable {W J α β : Type}

namespace Recorded

def andThen (r : Recorded W J α) (next : α → Cursor → Recorded W J β) : Recorded W J β :=
  match r.outcome with
  | (.error cause, c) => ⟨(.error cause, c), r.events⟩
  | (.ok a, c) => ⟨(next a c).outcome, r.events ++ (next a c).events⟩

def map (f : α → β) (r : Recorded W J α) : Recorded W J β :=
  ⟨(r.outcome.1.map f, r.outcome.2), r.events⟩

def note (f : Folding W J) (r : Recorded W J α) : Recorded W J α :=
  { r with events := .folded f :: r.events }

/-- A level that is refused is not opened. -/
def nested (level : Cursor → Recorded W J α) (c : Cursor) : Recorded W J α :=
  if nestingLimit ≤ c.depth then ⟨(.error (.nestingTooDeep nestingLimit), c), []⟩
  else
    let r := level c.descend
    ⟨(r.outcome.1, r.outcome.2.ascend), .opened :: r.events ++ [.closed]⟩

section

variable [Builds W J]

def operand (g : Grammar W J) (level : Priority → Cursor → Recorded W J (Expression W J))
    (c : Cursor) : Recorded W J (Expression W J) :=
  match c.words with
  | [] => ⟨(.error .unexpectedEnd, c), []⟩
  | word :: rest =>
      match g.readOperand word with
      | .error cause => ⟨(.error cause, c.moveTo rest), []⟩
      | .ok none => ⟨(.ok (.value word), c.moveTo rest), []⟩
      | .ok (some op) =>
          if op.opensGroup then
            ((level 0 (c.moveTo rest)).andThen fun e c => ⟨close e c, []⟩).map
              (Builds.wrap op.wrap)
          else (level op.priority (c.moveTo rest)).map (Builds.wrap op.wrap)

/-- Notes the operation as soon as it is to be folded, before the floor behind it is computed. -/
def fold (floor : Priority) (op : Trailing W J)
    (level : Priority → Cursor → Recorded W J (Expression W J)) (e : Expression W J) (c : Cursor) :
    Recorded W J (Expression W J) :=
  match op.form with
  | .behind wrap => .note ⟨floor, op⟩ ⟨(.ok (Builds.wrap wrap e), c), []⟩
  | .between associativity join =>
      .note ⟨floor, op⟩
        ((level (floorBehind op.priority associativity) c).map (Builds.join join e))

def climb (g : Grammar W J) (level : Priority → Cursor → Recorded W J (Expression W J))
    (floor : Priority) : Nat → Expression W J → Cursor → Recorded W J (Expression W J)
  | 0, e, c => ⟨(.ok e, c), []⟩
  | count + 1, e, c =>
      match c.words with
      | [] => ⟨(.ok e, c), []⟩
      | word :: rest =>
          match g.readOperation word with
          | .error cause => ⟨(.error cause, c), []⟩
          | .ok op =>
              if op.priority ≤ floor then ⟨(.ok e, c), []⟩
              else (fold floor op level e (c.moveTo rest)).andThen (climb g level floor count)

def expression (g : Grammar W J) : Nat → Priority → Cursor → Recorded W J (Expression W J)
  | 0, _ => nested fun c => ⟨(.error .unexpectedEnd, c), []⟩
  | count + 1, floor =>
      nested fun c =>
        (operand g (expression g count) c).andThen (climb g (expression g count) floor count)

def finish (e : Expression W J) (c : Cursor) : Recorded W J (Option (Expression W J)) :=
  match c.words with
  | [] => ⟨(.ok (some e), c), []⟩
  | word :: rest => ⟨(.error (leftover word), c.moveTo rest), []⟩

def parse (g : Grammar W J) (c : Cursor) : Recorded W J (Option (Expression W J)) :=
  match c.words with
  | [] => ⟨(.ok none, c), []⟩
  | _ :: _ => (expression g c.words.length 0 c).andThen finish

end

/-! What is recorded changes no outcome. -/

theorem outcome_andThen (r : Recorded W J (Expression W J))
    (next : Expression W J → Cursor → Recorded W J (Expression W J)) :
    (r.andThen next).outcome = Outcome.andThen r.outcome fun e c => (next e c).outcome := by
  obtain ⟨⟨result, c⟩, events⟩ := r
  cases result <;> rfl

theorem outcome_map (f : Expression W J → Expression W J) (r : Recorded W J (Expression W J)) :
    (r.map f).outcome = Outcome.map f r.outcome := rfl

theorem outcome_nested (level : Cursor → Recorded W J (Expression W J)) (c : Cursor) :
    (nested level c).outcome = Climbing.nested (fun c => (level c).outcome) c := by
  rw [nested, Climbing.nested]
  split <;> rfl

section

variable [Builds W J] (g : Grammar W J)
  {level : Priority → Cursor → Recorded W J (Expression W J)}
  {plain : Priority → Cursor → Outcome W J} (h : ∀ floor c, (level floor c).outcome = plain floor c)
include h

theorem outcome_operand (c : Cursor) :
    (operand g level c).outcome = Climbing.operand g plain c := by
  simp only [operand, Climbing.operand]
  cases c.words with
  | nil => rfl
  | cons word rest =>
      dsimp only
      cases g.readOperand word with
      | error cause => rfl
      | ok found =>
          cases found with
          | none => rfl
          | some op =>
              dsimp only
              split
              · rw [outcome_map, outcome_andThen, h]
              · rw [outcome_map, h]

theorem outcome_fold (floor : Priority) (op : Trailing W J) (e : Expression W J) (c : Cursor) :
    (fold floor op level e c).outcome = Climbing.fold op plain e c := by
  simp only [fold, Climbing.fold]
  cases op.form with
  | behind wrap => rfl
  | between associativity join =>
      dsimp only
      rw [← h]
      rfl

theorem outcome_climb (floor : Priority) (count : Nat) (e : Expression W J) (c : Cursor) :
    (climb g level floor count e c).outcome = Climbing.climb g plain floor count e c := by
  induction count generalizing e c with
  | zero => rfl
  | succ count ih =>
      simp only [climb, Climbing.climb]
      cases c.words with
      | nil => rfl
      | cons word rest =>
          dsimp only
          cases g.readOperation word with
          | error cause => rfl
          | ok op =>
              dsimp only
              split
              · rfl
              · rw [outcome_andThen, outcome_fold h]
                exact congrArg _ (funext fun e => funext fun c => ih e c)

end

variable [Builds W J]

theorem outcome_expression (g : Grammar W J) (count : Nat) (floor : Priority) (c : Cursor) :
    (expression g count floor c).outcome = Climbing.expression g count floor c := by
  induction count generalizing floor c with
  | zero => exact outcome_nested _ c
  | succ count ih =>
      simp only [expression, Climbing.expression, outcome_nested, outcome_andThen,
        outcome_operand g ih, outcome_climb g ih]

theorem outcome_parse (g : Grammar W J) (c : Cursor) :
    (parse g c).outcome = Climbing.parse g c := by
  simp only [parse, Climbing.parse]
  cases c.words with
  | nil => rfl
  | cons word rest =>
      simp only [andThen, outcome_expression]
      generalize Climbing.expression g _ 0 c = o
      obtain ⟨result, after⟩ := o
      cases result with
      | error cause => rfl
      | ok e => cases hw : after.words <;> simp [finish, hw]

end Recorded

/-! What is kept by every piece of a record. -/

/-- A record of what was read at a depth may satisfy this however the reading went. -/
structure Kept (P : Nat → List (Event W J) → Prop) : Prop where
  nil : ∀ {depth}, P depth []
  append : ∀ {depth past next}, P depth past → P depth next → P depth (past ++ next)
  folded : ∀ {depth f}, f.floor < f.op.priority → P depth [.folded f]
  enclosed : ∀ {depth events}, depth < nestingLimit → P (depth + 1) events →
    P depth (.opened :: events ++ [.closed])

/-- A reading that starts at a depth ends there. -/
structure Recorded.Keeps (P : Nat → List (Event W J) → Prop) (depth : Nat)
    (r : Recorded W J α) : Prop where
  returns : r.outcome.2.depth = depth
  events : P depth r.events

theorem Recorded.Keeps.map {P : Nat → List (Event W J) → Prop} {depth : Nat}
    {r : Recorded W J α} (hr : r.Keeps P depth) (f : α → β) : (r.map f).Keeps P depth :=
  ⟨hr.returns, hr.events⟩

namespace Kept

variable {P : Nat → List (Event W J) → Prop} (hP : Kept P) {r : Recorded W J α} {depth : Nat}
include hP

theorem still {o : Except SyntaxError α × Cursor} (h : o.2.depth = depth) :
    (⟨o, []⟩ : Recorded W J α).Keeps P depth :=
  ⟨h, hP.nil⟩

theorem andThen {next : α → Cursor → Recorded W J β} (hr : r.Keeps P depth)
    (hn : ∀ a c, (next a c).Keeps P c.depth) : (r.andThen next).Keeps P depth := by
  obtain ⟨⟨result, c⟩, events⟩ := r
  obtain ⟨rfl, hevents⟩ := hr
  cases result with
  | error cause => exact ⟨rfl, hevents⟩
  | ok a => exact ⟨(hn a c).returns, hP.append hevents (hn a c).events⟩

theorem note {f : Folding W J} (hf : f.floor < f.op.priority) (hr : r.Keeps P depth) :
    (r.note f).Keeps P depth :=
  ⟨hr.returns, hP.append (hP.folded hf) hr.events⟩

theorem nested {level : Cursor → Recorded W J α} (h : ∀ c, (level c).Keeps P c.depth)
    (c : Cursor) : (Recorded.nested level c).Keeps P c.depth := by
  rw [Recorded.nested]
  split
  · exact hP.still rfl
  · rename_i hlimit
    have hinner := h c.descend
    exact ⟨congrArg (· - 1) hinner.returns, hP.enclosed (Nat.not_le.mp hlimit) hinner.events⟩

variable [Builds W J] {g : Grammar W J}

section

variable {level : Priority → Cursor → Recorded W J (Expression W J)}
  (h : ∀ floor c, (level floor c).Keeps P c.depth)
include h

theorem operand (c : Cursor) : (Recorded.operand g level c).Keeps P c.depth := by
  rw [Recorded.operand]
  split
  · exact hP.still rfl
  · rename_i word rest _
    split
    · exact hP.still rfl
    · exact hP.still rfl
    · rename_i op _
      split
      · exact (hP.andThen (h 0 (c.moveTo rest)) fun e c => hP.still (depth_close e c)).map _
      · exact (h op.priority (c.moveTo rest)).map _

theorem fold {floor : Priority} {op : Trailing W J} (hop : floor < op.priority)
    (e : Expression W J) (c : Cursor) : (Recorded.fold floor op level e c).Keeps P c.depth := by
  rw [Recorded.fold]
  split
  · exact hP.note hop (hP.still rfl)
  · exact hP.note hop ((h _ _).map _)

theorem climb (floor : Priority) (count : Nat) (e : Expression W J) (c : Cursor) :
    (Recorded.climb g level floor count e c).Keeps P c.depth := by
  induction count generalizing e c with
  | zero => exact hP.still rfl
  | succ count ih =>
      rw [Recorded.climb]
      split
      · exact hP.still rfl
      · rename_i word rest _
        split
        · exact hP.still rfl
        · split
          · exact hP.still rfl
          · rename_i hop
            exact hP.andThen (hP.fold h (Int32.not_le.mp hop) e (c.moveTo rest)) ih

end

theorem expression (g : Grammar W J) (count : Nat) (floor : Priority) (c : Cursor) :
    (Recorded.expression g count floor c).Keeps P c.depth := by
  induction count generalizing floor c with
  | zero => exact hP.nested (fun _ => hP.still rfl) c
  | succ count ih =>
      exact hP.nested (fun c => hP.andThen (hP.operand ih c) (hP.climb ih floor count)) c

theorem parse (g : Grammar W J) (c : Cursor) : (Recorded.parse g c).Keeps P c.depth := by
  rw [Recorded.parse]
  split
  · exact hP.still rfl
  · refine hP.andThen (hP.expression g _ 0 c) fun e after => ?_
    rw [Recorded.finish]
    split <;> exact hP.still rfl

end Kept

end Climbing

end InfixArithmetic

import InfixArithmetic.Expression.Basic
import InfixArithmetic.Grammar
import InfixArithmetic.Parsing.Cursor

/-!
Reading an expression by priority climbing.  Every level of the reading has a floor, and an
operation takes the expression before it as its operand only while its priority is above that floor.
-/

namespace InfixArithmetic

namespace Climbing

abbrev Outcome (W : Type := Wrap) (J : Type := BinaryOperator) :=
  Except SyntaxError (Expression W J) × Cursor

variable {W J : Type}

def Outcome.andThen (o : Outcome W J) (next : Expression W J → Cursor → Outcome W J) :
    Outcome W J :=
  match o with
  | (.error cause, c) => (.error cause, c)
  | (.ok e, c) => next e c

def Outcome.map (f : Expression W J → Expression W J) (o : Outcome W J) : Outcome W J :=
  (o.1.map f, o.2)

theorem depth_map (f : Expression W J → Expression W J) (o : Outcome W J) :
    (o.map f).2.depth = o.2.depth := rfl

theorem depth_andThen {o : Outcome W J} {next : Expression W J → Cursor → Outcome W J}
    (h : ∀ e c, (next e c).2.depth = c.depth) : (o.andThen next).2.depth = o.2.depth := by
  obtain ⟨r, c⟩ := o
  cases r with
  | error cause => rfl
  | ok e => exact h e c

def nestingLimit : Nat := 256

/-- Opens a level, and closes it again whatever comes of it. -/
def nested (level : Cursor → Outcome W J) (c : Cursor) : Outcome W J :=
  if nestingLimit ≤ c.depth then (.error (.nestingTooDeep nestingLimit), c)
  else
    let outcome := level c.descend
    (outcome.1, outcome.2.ascend)

theorem depth_nested {level : Cursor → Outcome W J} (h : ∀ c, (level c).2.depth = c.depth)
    (c : Cursor) : (nested level c).2.depth = c.depth := by
  rw [nested]
  split
  · rfl
  · simp [Cursor.ascend, Cursor.descend, h]

def close (e : Expression W J) (c : Cursor) : Outcome W J :=
  match c.words with
  | [] => (.error .unmatchedParentheses, c)
  | word :: rest =>
      if word = closeGroup then (.ok e, c.moveTo rest)
      else (.error .unmatchedParentheses, c.moveTo rest)

theorem depth_close (e : Expression W J) (c : Cursor) : (close e c).2.depth = c.depth := by
  rw [close]
  split
  · rfl
  · split <;> rfl

variable [Builds W J]

/-- Reads a value, or an operation together with the operand behind it. -/
def operand (g : Grammar W J) (level : Priority → Cursor → Outcome W J) (c : Cursor) :
    Outcome W J :=
  match c.words with
  | [] => (.error .unexpectedEnd, c)
  | word :: rest =>
      match g.readOperand word with
      | .error cause => (.error cause, c.moveTo rest)
      | .ok none => (.ok (.value word), c.moveTo rest)
      | .ok (some op) =>
          if op.opensGroup then ((level 0 (c.moveTo rest)).andThen close).map (Builds.wrap op.wrap)
          else (level op.priority (c.moveTo rest)).map (Builds.wrap op.wrap)

theorem depth_operand (g : Grammar W J) {level : Priority → Cursor → Outcome W J}
    (h : ∀ floor c, (level floor c).2.depth = c.depth) (c : Cursor) :
    (operand g level c).2.depth = c.depth := by
  rw [operand]
  split
  · rfl
  · split
    · rfl
    · rfl
    · split
      · rw [depth_map, depth_andThen depth_close, h]
        rfl
      · rw [depth_map, h]
        rfl

/-- The floor for the operand behind an operation; one lower lets it bind its own kind again. -/
def floorBehind (priority : Priority) : Associativity → Priority
  | .left => priority
  | .right => priority - 1

/-- Makes an expression the operand of the operation behind it. -/
def fold (op : Trailing W J) (level : Priority → Cursor → Outcome W J) (e : Expression W J)
    (c : Cursor) : Outcome W J :=
  match op.form with
  | .behind wrap => (.ok (Builds.wrap wrap e), c)
  | .between associativity join =>
      (level (floorBehind op.priority associativity) c).map (Builds.join join e)

theorem depth_fold (op : Trailing W J) {level : Priority → Cursor → Outcome W J}
    (h : ∀ floor c, (level floor c).2.depth = c.depth) (e : Expression W J) (c : Cursor) :
    (fold op level e c).2.depth = c.depth := by
  rw [fold]
  split
  · rfl
  · rw [depth_map, h]

/-- Folds up to `count` operations above the floor. -/
def climb (g : Grammar W J) (level : Priority → Cursor → Outcome W J) (floor : Priority) :
    Nat → Expression W J → Cursor → Outcome W J
  | 0, e, c => (.ok e, c)
  | count + 1, e, c =>
      match c.words with
      | [] => (.ok e, c)
      | word :: rest =>
          match g.readOperation word with
          | .error cause => (.error cause, c)
          | .ok op =>
              if op.priority ≤ floor then (.ok e, c)
              else (fold op level e (c.moveTo rest)).andThen (climb g level floor count)

theorem depth_climb (g : Grammar W J) {level : Priority → Cursor → Outcome W J}
    (h : ∀ floor c, (level floor c).2.depth = c.depth) (floor : Priority) (count : Nat)
    (e : Expression W J) (c : Cursor) : (climb g level floor count e c).2.depth = c.depth := by
  induction count generalizing e c with
  | zero => rfl
  | succ count ih =>
      rw [climb]
      split
      · rfl
      · split
        · rfl
        · split
          · rfl
          · rw [depth_andThen ih, depth_fold _ h]
            rfl

/-- Reads an expression of at most `count` words. -/
def expression (g : Grammar W J) : Nat → Priority → Cursor → Outcome W J
  | 0, _ => nested fun c => (.error .unexpectedEnd, c)
  | count + 1, floor =>
      nested fun c =>
        (operand g (expression g count) c).andThen (climb g (expression g count) floor count)

theorem depth_expression (g : Grammar W J) (count : Nat) (floor : Priority) (c : Cursor) :
    (expression g count floor c).2.depth = c.depth := by
  induction count generalizing floor c with
  | zero => exact depth_nested (fun _ => rfl) c
  | succ count ih =>
      refine depth_nested (fun c => ?_) c
      rw [depth_andThen (depth_climb g ih floor count), depth_operand g ih]

def leftover (word : String) : SyntaxError :=
  if word = closeGroup then .unmatchedParentheses else .invalidExpression word

/-- Reads one expression up to the last word, and leaves off at the first fault. -/
def parse (g : Grammar W J) (c : Cursor) : Except SyntaxError (Option (Expression W J)) × Cursor :=
  match c.words with
  | [] => (.ok none, c)
  | _ :: _ =>
      match expression g c.words.length 0 c with
      | (.error cause, after) => (.error cause, after)
      | (.ok e, after) =>
          match after.words with
          | [] => (.ok (some e), after)
          | word :: rest => (.error (leftover word), after.moveTo rest)

end Climbing

end InfixArithmetic

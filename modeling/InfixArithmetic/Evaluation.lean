import InfixArithmetic.Mode
import InfixArithmetic.Parsing.Climbing
import InfixArithmetic.Parsing.Yard
import InfixArithmetic.Text.Spacing

/-!
From text to value: the text is normalised, read in one of the two modes, and evaluated.  A text
without words has neither expression nor value.
-/

namespace InfixArithmetic

variable {W J : Type} [Builds W J]

/-- Reads one expression and leaves the cursor behind the words it took. -/
def Mode.parse (mode : Mode) (g : Grammar W J) (c : Cursor) :
    Except SyntaxError (Option (Expression W J)) × Cursor :=
  match mode with
  | .normal => Climbing.parse g c
  | .rpn =>
      let (result, rest) := Yard.parse g c.words
      (result.map (·.map .program), c.moveTo rest)

/-- The results of reading again and again from where the last reading left off. -/
def Mode.parseTimes (mode : Mode) (g : Grammar W J) :
    Nat → Cursor → List (Except SyntaxError (Option (Expression W J)))
  | 0, _ => []
  | count + 1, c =>
      let (result, after) := mode.parse g c
      result :: mode.parseTimes g count after

def parse (g : Grammar W J) (mode : Mode) (text : String) :
    Except SyntaxError (Option (Expression W J)) :=
  (mode.parse g { words := Text.words (Text.normalize text) }).1

def evaluateAs (value : Expression W J → Except ArithmeticError Float) (g : Grammar W J)
    (mode : Mode) (text : String) : Except Failure (Option Float) :=
  match parse g mode text with
  | .error cause => .error (.parsing cause)
  | .ok none => .ok none
  | .ok (some e) =>
      match value e with
      | .error cause => .error (.evaluating cause)
      | .ok x => .ok (some x)

def evaluate (g : Grammar) (mode : Mode) (text : String) : Except Failure (Option Float) :=
  evaluateAs Expression.evaluate g mode text

end InfixArithmetic

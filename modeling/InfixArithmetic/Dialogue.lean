import InfixArithmetic.Report
import InfixArithmetic.Text.Pieces

/-!
Dialogues: a prompt for every line, and a response to it, until the input ends, says `exit`, or
cannot be decoded.
-/

namespace InfixArithmetic

namespace Dialogue

def newline : UInt8 := 10

def carriageReturn : UInt8 := 13

def prompt : String := "> "

def exitWord : String := "exit"

/-- The lines of an input, each with the line feed that ends it. -/
def lines : List UInt8 → List (List UInt8)
  | [] => []
  | b :: rest => if b = newline then [b] :: lines rest else Text.extend b (lines rest)

theorem flatten_lines (bytes : List UInt8) : (lines bytes).flatten = bytes := by
  induction bytes with
  | nil => rfl
  | cons b rest ih =>
      rw [lines]
      split
      · simp [ih]
      · rw [Text.flatten_extend, ih]

theorem lines_ne_nil (start : List UInt8) : lines (start ++ [newline]) ≠ [] := by
  intro h
  have hf := flatten_lines (start ++ [newline])
  rw [h] at hf
  simp at hf

theorem lines_append (start rest : List UInt8) :
    lines (start ++ newline :: rest) = lines (start ++ [newline]) ++ lines rest := by
  induction start with
  | nil => simp [lines]
  | cons b start ih =>
      rw [List.cons_append, List.cons_append, lines, lines, ih]
      split
      · rfl
      · exact Text.extend_append b (lines_ne_nil start) (lines rest)

/-- Drops a line feed from the end, and a carriage return before it. -/
def unterminated (line : List UInt8) : List UInt8 :=
  match line.reverse with
  | [] => []
  | b :: rest =>
      if b ≠ newline then line
      else
        match rest with
        | [] => []
        | c :: start => if c = carriageReturn then start.reverse else rest.reverse

def decode? (line : List UInt8) : Option String :=
  String.fromUTF8? ⟨line.toArray⟩

inductive Ending where
  | finished
  | undecodable
  deriving DecidableEq

def Ending.chain? : Ending → Option (List String)
  | .finished => none
  | .undecodable => some ["Could not read expression", "stream did not contain valid UTF-8"]

def respond (o : Options) (text : String) : String :=
  match o.report text with
  | .ok (some report) => report ++ "\n"
  | .ok none => ""
  | .error complaint => complaint.cause.message ++ "\n"

def react (o : Options) (line : List UInt8) : Except Ending String :=
  match decode? (unterminated line) with
  | none => .error .undecodable
  | some text => if text = exitWord then .error .finished else .ok (respond o text)

def transcript (o : Options) : List (List UInt8) → String × Ending
  | [] => (prompt, .finished)
  | line :: rest =>
      match react o line with
      | .error ending => (prompt, ending)
      | .ok response =>
          let (output, ending) := transcript o rest
          (prompt ++ response ++ output, ending)

end Dialogue

end InfixArithmetic

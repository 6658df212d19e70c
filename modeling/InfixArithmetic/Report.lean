import InfixArithmetic.Evaluation
import InfixArithmetic.Expression.Outline
import InfixArithmetic.Expression.Postfix

/-!
Reports on one expression: its outline and its postfix text if asked for, then its value.
-/

namespace InfixArithmetic

structure Options where
  mode : Mode := .normal
  tree : Bool := false
  program : Bool := false
  deriving DecidableEq

inductive Stage where
  | parsing (text : String)
  | evaluating (text : String)
  | converting
  deriving DecidableEq

def Stage.message : Stage → String
  | .parsing text => "Could not parse expression: " ++ text
  | .evaluating text => "Could not evaluate expression: " ++ text
  | .converting => "Could not convert expression to postfix"

structure Complaint where
  stage : Stage
  cause : Failure
  deriving DecidableEq

def Complaint.chain (c : Complaint) : List String :=
  [c.stage.message, c.cause.message]

namespace Options

def programLine (o : Options) (e : Expression) : Except SyntaxError String :=
  if o.program then
    (e.toProgram Grammar.calculator).map fun p => "Postfix: " ++ p.text ++ "\n"
  else .ok ""

def layout (o : Options) (e : Expression) (x : Float) : Except SyntaxError String :=
  (o.programLine e).map fun line =>
    (if o.tree then e.drawing else "") ++ line ++ "Result: " ++ Decimal.text x ++ "\n"

/-- A text without words has no report. -/
def report (o : Options) (text : String) : Except Complaint (Option String) :=
  match parse Grammar.calculator o.mode text with
  | .error cause => .error ⟨.parsing text, .parsing cause⟩
  | .ok none => .ok none
  | .ok (some e) =>
      match e.evaluate with
      | .error cause => .error ⟨.evaluating text, .evaluating cause⟩
      | .ok x =>
          match o.layout e x with
          | .error cause => .error ⟨.converting, .parsing cause⟩
          | .ok lines => .ok (some lines)

end Options

end InfixArithmetic

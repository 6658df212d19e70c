import InfixArithmetic.Expression.Basic

/-!
The outline of an expression: a line for every node, below its operator and indented by branches.
-/

namespace InfixArithmetic

/-- Ordered labelled trees side by side: the first one's label and children, then the others. -/
inductive Forest where
  | nil
  | node (label : String) (children rest : Forest)
  deriving DecidableEq

namespace Forest

def isNil : Forest → Bool
  | .nil => true
  | .node _ _ _ => false

def branch (last : Bool) : String :=
  if last then "└─ " else "├─ "

def continuation (last : Bool) : String :=
  if last then "   " else "│  "

def lines : Forest → String → List String
  | .nil, _ => []
  | .node label children rest, margin =>
      (margin ++ branch rest.isNil ++ label) ::
        (children.lines (margin ++ continuation rest.isNil) ++ rest.lines margin)

def leaves : List String → Forest
  | [] => .nil
  | label :: labels => .node label .nil (leaves labels)

end Forest

namespace Expression

variable {W J : Type}

/-- The tree of an expression, before the trees of `rest`. -/
def outline : Expression W J → Forest → Forest
  | .value text, rest => .node text .nil rest
  | .literal x, rest => .node (Decimal.text x) .nil rest
  | .binary f left right, rest => .node f.symbol (left.outline (right.outline .nil)) rest
  | .unary f operand, rest => .node f.symbol (operand.outline .nil) rest
  | .program p, rest => .node "rpn" (.leaves (p.map Instruction.text)) rest

def drawing (e : Expression W J) : String :=
  String.join (("expression" :: (e.outline .nil).lines "").map (· ++ "\n"))

end Expression

end InfixArithmetic

import InfixArithmetic.Failure

/-!
The two ways of reading an expression.
-/

namespace InfixArithmetic

inductive Mode where
  | normal
  | rpn
  deriving DecidableEq

def Mode.name : Mode → String
  | .normal => "normal"
  | .rpn => "rpn"

/-- A mode's name may be written in either case of its ASCII letters. -/
def Mode.ofName (name : String) : Except Failure Mode :=
  if name.map Char.toLower = "normal" then .ok .normal
  else if name.map Char.toLower = "rpn" then .ok .rpn
  else .error (.unknownMode name)

theorem Mode.map_toLower_name (m : Mode) : m.name.map Char.toLower = m.name := by
  apply String.toList_injective
  rw [String.toList_map]
  cases m <;> decide

theorem Mode.ofName_name (m : Mode) : Mode.ofName m.name = .ok m := by
  rw [Mode.ofName, Mode.map_toLower_name]
  cases m <;> rfl

end InfixArithmetic

/-!
Lists cut into pieces, built from the right.
-/

namespace InfixArithmetic.Text

/-- Puts an element in front of the first piece, or opens one with it. -/
def extend {α : Type} (a : α) : List (List α) → List (List α)
  | [] => [[a]]
  | piece :: pieces => (a :: piece) :: pieces

theorem flatten_extend {α : Type} (a : α) (pieces : List (List α)) :
    (extend a pieces).flatten = a :: pieces.flatten := by
  cases pieces <;> rfl

theorem extend_append {α : Type} (a : α) {first : List (List α)} (h : first ≠ [])
    (others : List (List α)) : extend a (first ++ others) = extend a first ++ others := by
  cases first with
  | nil => exact absurd rfl h
  | cons piece pieces => rfl

end InfixArithmetic.Text

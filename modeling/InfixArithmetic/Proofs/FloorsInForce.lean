import InfixArithmetic.Proofs.ClimbingSteps
import InfixArithmetic.Proofs.Recording

/-!
Floors in force.  An operation is folded only above the floor in force, so lowering its priority by
one never leaves the range of priorities, and the floor of its right operand is never below the
floor in force.
-/

namespace InfixArithmetic

namespace Climbing

variable {W J : Type}

def Event.folding? : Event W J → Option (Folding W J)
  | .folded f => some f
  | .opened | .closed => none

def Above (events : List (Event W J)) : Prop :=
  ∀ f ∈ events.filterMap Event.folding?, f.floor < f.op.priority

theorem kept_above : Kept fun _ (events : List (Event W J)) => Above events where
  nil := nofun
  append hpast hnext := by
    simp only [Above, List.filterMap_append]
    exact List.forall_mem_append.mpr ⟨hpast, hnext⟩
  folded hf := List.forall_mem_singleton.mpr hf
  enclosed _ h := by simpa [Above, Event.folding?] using h

variable [Builds W J]

def foldings (g : Grammar W J) : Nat → Cursor → List (Folding W J)
  | 0, _ => []
  | times + 1, c =>
      (Recorded.parse g c).events.filterMap Event.folding? ++ foldings g times (parse g c).2

theorem above_foldings {g : Grammar W J} {times : Nat} {c : Cursor} :
    ∀ f ∈ foldings g times c, f.floor < f.op.priority := by
  induction times generalizing c with
  | zero => exact nofun
  | succ times ih => exact List.forall_mem_append.mpr ⟨(kept_above.parse g c).events, ih⟩

theorem minValue_lt_of_lt {floor p : Priority} (h : floor < p) : Int32.minValue < p :=
  Int32.lt_of_le_of_lt (Int32.minValue_le floor) h

theorem toInt_sub_one {p : Priority} (h : Int32.minValue < p) : (p - 1).toInt = p.toInt - 1 := by
  have hlow : -2 ^ 31 < p.toInt := Int32.lt_iff_toInt_lt.mp h
  have hhigh := p.toInt_lt
  rw [Int32.toInt_sub]
  exact Int.bmod_eq_of_le (by simp; omega) (by simp; omega)

theorem floors_never_overflow (g : Grammar W J) :
    (∀ count floor c, (Recorded.expression g count floor c).outcome = expression g count floor c) ∧
    (∀ c, (Recorded.parse g c).outcome = parse g c) ∧
    ∀ words times, ∀ f ∈ foldings g times { words },
      f.floor < f.op.priority ∧ Int32.minValue < f.op.priority ∧
        (f.op.priority - 1).toInt = f.op.priority.toInt - 1 ∧
        ∀ associativity, f.floor ≤ floorBehind f.op.priority associativity := by
  refine ⟨Recorded.outcome_expression g, Recorded.outcome_parse g, fun words times f hf => ?_⟩
  have habove := above_foldings f hf
  have hleast := minValue_lt_of_lt habove
  exact ⟨habove, hleast, toInt_sub_one hleast, le_floorBehind habove⟩

/-- Floors sink to the least priority, and an operation of that priority is never folded. -/
example :
    let least : Grammar := .ofList [.leading ⟨"~", Int32.minValue, .group⟩,
      .trailing ⟨"^", Int32.minValue + 1, .between .right .exponentiate⟩,
      .trailing ⟨"+", Int32.minValue, .between .right .add⟩]
    (foldings least 2 { words := ["~", "1", "^", "2", "^", "3", "+", "4"] }).map (·.floor) =
      [Int32.minValue, Int32.minValue] := by
  decide

end Climbing

end InfixArithmetic

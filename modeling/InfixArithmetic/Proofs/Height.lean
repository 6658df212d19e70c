import InfixArithmetic.Proofs.Derivations
import InfixArithmetic.Proofs.Held
import InfixArithmetic.Proofs.Visits
import InfixArithmetic.Text.Words

/-!
How tall the expressions are that climbing reads.  The limit on open levels bounds how often a path
enters a right operand or the operand of an operator in front, but folding adds left operands and
operands of operators behind without a level: only the runs of such steps make an expression taller
than the limit, and they can be as long as the text.
-/

namespace InfixArithmetic

open Climbing (nestingLimit)
open Grammar (calculator)

namespace Expression

/-- How often a path enters a right operand, or the operand of an operator in front of it. -/
def nesting : Expression → Nat
  | .value _ | .literal _ | .program _ => 0
  | .binary _ left right => max left.nesting (right.nesting + 1)
  | .unary f operand => if f.leads then operand.nesting + 1 else operand.nesting

/-- The steps from the root into left operands and operands of operators behind them. -/
def folds : Expression → Nat
  | .value _ | .literal _ | .program _ => 0
  | .binary _ left _ => left.folds + 1
  | .unary f operand => if f.leads then 0 else operand.folds + 1

/-- The longest run of such steps anywhere. -/
def chain : Expression → Nat
  | .value _ | .literal _ | .program _ => 0
  | .binary _ left right => max (left.folds + 1) (max left.chain right.chain)
  | .unary f operand => if f.leads then operand.chain else max (operand.folds + 1) operand.chain

theorem folds_le_chain (e : Expression) : e.folds ≤ e.chain := by
  cases e with
  | value | literal | program => exact Nat.le_refl _
  | binary f left right => exact Nat.le_max_left _ _
  | unary f operand =>
      cases hf : f.leads with
      | true => simp [folds, hf]
      | false =>
          simp only [folds, chain, hf, Bool.false_eq_true, if_false]
          exact Nat.le_max_left _ _

theorem height_le_folds_add {bound : Nat} (e : Expression) (h : e.chain ≤ bound) :
    e.height ≤ e.folds + 1 + e.nesting * (bound + 1) := by
  induction e with
  | value | literal | program => simp [height, folds]
  | unary f operand ih =>
      have hfolds := operand.folds_le_chain
      cases hf : f.leads with
      | true =>
          simp only [chain, hf, if_true] at h
          have hop := ih h
          simp only [height, folds, nesting, hf, if_true, Nat.succ_mul]
          omega
      | false =>
          simp only [chain, hf, Bool.false_eq_true, if_false, Nat.max_le] at h
          have hop := ih h.2
          simp only [height, folds, nesting, hf, Bool.false_eq_true, if_false]
          omega
  | binary f left right ihl ihr =>
      simp only [chain, Nat.max_le] at h
      have hl := ihl h.2.1
      have hr := ihr h.2.2
      have hfolds := right.folds_le_chain
      -- the two summands of the maximum, multiplied out
      have hleft := Nat.mul_le_mul_right (bound + 1)
        (Nat.le_max_left left.nesting (right.nesting + 1))
      have hright := Nat.mul_le_mul_right (bound + 1)
        (Nat.le_max_right left.nesting (right.nesting + 1))
      rw [Nat.succ_mul] at hright
      simp only [height, folds, nesting]
      omega

theorem height_le_nesting_mul_chain (e : Expression) :
    e.height ≤ (e.nesting + 1) * (e.chain + 1) := by
  have h := e.height_le_folds_add (Nat.le_refl _)
  have hfolds := e.folds_le_chain
  rw [Nat.succ_mul]
  omega

end Expression

theorem Wrap.height_build_le (wrap : Wrap) (e : Expression) :
    (wrap.build e).height ≤ e.height + 1 := by
  cases wrap with
  | operator f => exact Nat.le_refl _
  | group => exact Nat.le_succ _

theorem Wrap.nesting_build_le (wrap : Wrap) (e : Expression) :
    (wrap.build e).nesting ≤ e.nesting + 1 := by
  cases wrap with
  | operator f => cases hf : f.leads <;> simp [build, Expression.nesting, hf]
  | group => exact Nat.le_succ _

theorem Climbs.height_add_length_le {g : Grammar} {floor : Priority} {words rest : List String}
    {e : Expression} (h : Climbs g floor words e rest) :
    e.height + rest.length ≤ words.length := by
  induction h with
  | value => simp [Expression.height]; omega
  | @leading _ _ _ _ op e _ _ _ _ ih =>
      have hb := op.wrap.height_build_le e
      simp only [Builds.wrap_eq, List.length_cons]
      omega
  | @group _ _ _ _ op e _ _ _ _ ih =>
      have hb := op.wrap.height_build_le e
      simp only [Builds.wrap_eq, List.length_cons] at ih ⊢
      omega
  | @behind _ _ _ _ _ wrap e _ _ _ _ ih =>
      have hb := wrap.height_build_le e
      simp only [List.length_cons] at ih
      rw [Builds.wrap_eq]
      omega
  | between _ _ _ _ _ _ ihl ihr =>
      simp only [List.length_cons] at ihl
      simp only [Builds.join_eq, Expression.height]
      omega

/-- An operation behind its operand makes no operator of it that comes in front. -/
def Form.trails : Form → Bool
  | .behind (.operator f) => !f.leads
  | .behind .group | .between _ _ => true

def Grammar.Places (g : Grammar) : Prop :=
  ∀ op ∈ g.trailing, op.form.trails = true

namespace Climbing

variable {g : Grammar} {level : Priority → Cursor → Outcome} {floor : Priority} {e : Expression}
  {c after : Cursor} {words : List String}

/-- What such a level reads fits between its depth and the limit. -/
def Fits (level : Priority → Cursor → Outcome) : Prop :=
  ∀ floor c e after, level floor c = (.ok e, after) → c.depth + e.nesting < nestingLimit

theorem fits_operand (hl : Fits level) (hd : c.depth ≤ nestingLimit)
    (h : operand g level c = (.ok e, after)) : c.depth + e.nesting ≤ nestingLimit := by
  cases hw : c.words with
  | nil => simp [operand_nil hw] at h
  | cons word rest =>
      cases ho : g.readOperand word with
      | error cause => simp [operand_error hw ho] at h
      | ok found =>
          cases found with
          | none =>
              rw [operand_value hw ho] at h
              cases h
              exact hd
          | some op =>
              cases hg : op.opensGroup with
              | true =>
                  rw [operand_group hw ho hg] at h
                  obtain ⟨inner, hgroup, rfl⟩ := map_eq_ok h
                  obtain ⟨found, last, hin, hclose⟩ := andThen_eq_ok hgroup
                  obtain ⟨_, rfl⟩ := close_eq_ok hclose
                  have hlt := hl _ _ _ _ hin
                  rw [Cursor.depth_moveTo] at hlt
                  have hb := op.wrap.nesting_build_le found
                  rw [Builds.wrap_eq]
                  omega
              | false =>
                  rw [operand_leading hw ho hg] at h
                  obtain ⟨inner, hin, rfl⟩ := map_eq_ok h
                  have hlt := hl _ _ _ _ hin
                  rw [Cursor.depth_moveTo] at hlt
                  have hb := op.wrap.nesting_build_le inner
                  rw [Builds.wrap_eq]
                  omega

theorem fits_fold (hl : Fits level) {op : Trailing}
    (hp : op.form.trails = true) {left : Expression}
    (hleft : c.depth + left.nesting ≤ nestingLimit)
    (h : fold op level left c = (.ok e, after)) : c.depth + e.nesting ≤ nestingLimit := by
  cases hf : op.form with
  | behind wrap =>
      rw [fold_behind hf] at h
      cases h
      cases wrap with
      | operator f =>
          have hleads : f.leads = false := by simpa [Form.trails, hf] using hp
          simpa [Wrap.build, Expression.nesting, hleads] using hleft
      | group => exact hleft
  | between a f =>
      rw [fold_between hf] at h
      obtain ⟨right, hin, rfl⟩ := map_eq_ok h
      have hright := hl _ _ _ _ hin
      simp only [Builds.join_eq, Expression.nesting]
      omega

theorem fits_climb (hg : g.Places) (hl : Fits level)
    (hdepth : ∀ floor c, (level floor c).2.depth = c.depth) {count : Nat} {left : Expression}
    (hleft : c.depth + left.nesting ≤ nestingLimit)
    (h : climb g level floor count left c = (.ok e, after)) :
    c.depth + e.nesting ≤ nestingLimit := by
  induction count generalizing left c with
  | zero =>
      cases h
      exact hleft
  | succ count ih =>
      cases hw : c.words with
      | nil =>
          rw [climb_nil hw] at h
          cases h
          exact hleft
      | cons word rest =>
          cases hr : g.readOperation word with
          | error cause => simp [climb_error hw hr] at h
          | ok op =>
              by_cases hle : op.priority ≤ floor
              · rw [climb_stop hw hr hle] at h
                cases h
                exact hleft
              · rw [climb_fold hw hr (by simpa using hle)] at h
                obtain ⟨next, c', hfold, hclimb⟩ := andThen_eq_ok h
                have hsame := depth_fold op hdepth left (c.moveTo rest)
                rw [hfold] at hsame
                have hp := hg op (Grammar.readOperation_eq_ok hr).1
                have hnext : (c.moveTo rest).depth + next.nesting ≤ nestingLimit :=
                  fits_fold hl hp hleft hfold
                rw [← hsame] at hnext
                have hlast := ih hnext hclimb
                rwa [hsame] at hlast

theorem fits_expression (hg : g.Places) (count : Nat) : Fits (expression g count) := by
  induction count with
  | zero =>
      intro floor c e after h
      obtain ⟨inner, h, _⟩ := nested_eq_ok h
      cases h
  | succ count ih =>
      intro floor c e after h
      by_cases hd : c.depth < nestingLimit
      · have hdescend : c.descend.depth = c.depth + 1 := rfl
        obtain ⟨inner, h, _⟩ := nested_eq_ok h
        obtain ⟨found, c', hoperand, hclimb⟩ := andThen_eq_ok h
        have hsame := depth_operand g (depth_expression g count) c.descend
        rw [hoperand] at hsame
        have hfound := fits_operand ih (by omega) hoperand
        rw [← hsame] at hfound
        have hlast := fits_climb hg ih (depth_expression g count) hfound hclimb
        rw [hsame] at hlast
        omega
      · rw [expression, nested, if_pos (Nat.not_lt.mp hd)] at h
        cases h

theorem parse_eq_some (h : (parse g { words }).1 = .ok (some e)) :
    ∃ after, expression g words.length 0 { words } = (.ok e, after) := by
  cases words with
  | nil => cases h
  | cons word rest =>
      simp only [parse] at h
      generalize expression g _ 0 _ = o at h ⊢
      obtain ⟨r, after⟩ := o
      cases r with
      | error cause => cases h
      | ok found =>
          cases hw : after.words with
          | nil =>
              simp only [hw] at h
              cases h
              exact ⟨after, rfl⟩
          | cons next left => simp [hw] at h

theorem nesting_lt_of_parse (hg : g.Places) (h : (parse g { words }).1 = .ok (some e)) :
    e.nesting < nestingLimit := by
  obtain ⟨after, hread⟩ := parse_eq_some h
  simpa using fits_expression hg _ _ _ _ _ hread

end Climbing

theorem places_calculator : calculator.Places := by
  simp only [Grammar.Places]
  decide

/-! Sums of ones: every further one makes the expression taller, and none opens a second level. -/

def sumText : Nat → String
  | 0 => "1"
  | count + 1 => sumText count ++ " + 1"

def addends (count : Nat) : List String :=
  (List.replicate count ["+", "1"]).flatten

def Expression.addOnes : Nat → Expression → Expression
  | 0, e => e
  | count + 1, e => addOnes count (.binary .add e (.value "1"))

theorem Expression.height_addOnes (count : Nat) (e : Expression) :
    (addOnes count e).height = e.height + count := by
  induction count generalizing e with
  | zero => rfl
  | succ count ih =>
      have hpos := e.height_pos
      rw [addOnes, ih]
      simp only [height]
      omega

theorem words_sumText (count : Nat) : Text.words (sumText count) = "1" :: addends count := by
  induction count with
  | zero => decide
  | succ count ih =>
      have hlast : (Text.runs ['+', ' ', '1']).map String.ofList = ["+", "1"] := by decide
      have htext : (sumText count ++ " + 1").toList =
          (sumText count).toList ++ ' ' :: ['+', ' ', '1'] := by simp
      rw [sumText, Text.words, htext, Text.runs_append_blank (by decide), List.map_append, hlast]
      rw [Text.words] at ih
      rw [ih, addends, addends, List.replicate_succ', List.flatten_append]
      rfl

namespace Climbing

theorem readOperation_plus :
    calculator.readOperation "+" = .ok ⟨"+", 2, .between .left .add⟩ := rfl

theorem halts_addends (count : Nat) : Halts calculator 2 (addends count) := by
  cases count with
  | zero => exact halts_nil _ _
  | succ count => exact halts_of_le readOperation_plus (by decide) _

theorem climb_addends (bound count ones : Nat) (left : Expression) {c : Cursor}
    (hd : c.depth < nestingLimit) (hw : c.words = addends ones) (hn : ones ≤ count) :
    climb calculator (expression calculator (bound + 1)) 0 count left c =
      (.ok (left.addOnes ones), c.moveTo []) := by
  induction ones generalizing left c count with
  | zero =>
      obtain ⟨words, depth⟩ := c
      obtain rfl : words = [] := hw
      exact climb_nil rfl
  | succ ones ih =>
      obtain ⟨count, rfl⟩ : ∃ k, count = k + 1 := ⟨count - 1, by omega⟩
      have hvalue := expression_value (c := c.moveTo ("1" :: addends ones)) hd rfl
        (rfl : calculator.readOperand "1" = .ok none) (halts_addends ones) bound
      have hfold : fold ⟨"+", 2, .between .left .add⟩ (expression calculator (bound + 1)) left
          (c.moveTo ("1" :: addends ones)) =
            (.ok (.binary .add left (.value "1")), c.moveTo (addends ones)) := by
        rw [fold_between rfl, floorBehind, hvalue]
        rfl
      have hw' : c.words = "+" :: "1" :: addends ones := hw
      rw [climb_fold hw' readOperation_plus (by decide), hfold]
      exact ih count _ (c := c.moveTo (addends ones)) hd rfl (by omega)

theorem parse_addends (count : Nat) :
    (parse calculator { words := "1" :: addends (count + 1) }).1 =
      .ok (some (.addOnes (count + 1) (.value "1"))) := by
  have hlen : (addends (count + 1)).length = 2 * count + 1 + 1 := by
    simp [addends]
    omega
  have hclimb := climb_addends (2 * count + 1) (2 * count + 2) (count + 1) (.value "1")
    (c := { words := addends (count + 1), depth := 1 }) (by simp [nestingLimit]) rfl (by omega)
  have hread : expression calculator (2 * count + 3) 0 { words := "1" :: addends (count + 1) } =
      (.ok (.addOnes (count + 1) (.value "1")), { words := [] }) := by
    rw [expression_succ (by simp [nestingLimit]), operand_value rfl rfl]
    simp only [Outcome.andThen, Cursor.descend, Cursor.moveTo, hclimb]
    rfl
  simp only [parse, List.length_cons, hlen, hread]

end Climbing

theorem height_is_unbounded :
    ¬ ∃ bound, ∀ text e, (Climbing.parse calculator { words := Text.words text }).1 =
      .ok (some e) → e.height ≤ bound := by
  rintro ⟨bound, h⟩
  have hread := Climbing.parse_addends bound
  rw [← words_sumText] at hread
  have hle := h _ _ hread
  rw [Expression.height_addOnes] at hle
  simp only [Expression.height] at hle
  omega

theorem height_grows_by_folds_alone {words : List String} {e : Expression}
    (h : (Climbing.parse calculator { words }).1 = .ok (some e)) :
    e.nesting < nestingLimit ∧ e.height ≤ nestingLimit * (e.chain + 1) ∧
      e.height ≤ words.length ∧
      e.evaluationHeight ≤ e.height ∧
      (∀ x, e.evaluate = .ok x → e.evaluationHeight = e.height) ∧
      ∀ calls,
        e.evaluateWithin calls =
          (if e.evaluationHeight ≤ calls then some e.evaluate else none) ∧
        e.visitWithin (.serialization calculator) calls =
          (if e.height ≤ calls then some (e.toProgram calculator) else none) ∧
        e.visitWithin .outline calls = (if e.height ≤ calls then some e.outline else none) := by
  have hnesting := Climbing.nesting_lt_of_parse places_calculator h
  refine ⟨hnesting, ?_, by simpa using (Climbing.climbs_of_parse h).height_add_length_le,
    e.evaluationHeight_le, fun x => Expression.evaluationHeight_eq, ?_⟩
  · calc e.height ≤ (e.nesting + 1) * (e.chain + 1) := e.height_le_nesting_mul_chain
      _ ≤ nestingLimit * (e.chain + 1) := Nat.mul_le_mul_right _ hnesting
  · intro calls
    simp only [Expression.evaluateWithin_eq, Expression.visitWithin_eq,
      Expression.visit_serialization, Expression.visit_outline, and_self]

theorem height_grows_by_folds_alone_signs :
    ∃ e, (Climbing.parse calculator { words := ["-", "1", "!", "^", "-", "2", "+", "3"] }).1 =
        .ok (some e) ∧ e.nesting = 3 ∧ e.chain = 2 ∧ e.height = 5 ∧
      e.height ≤ nestingLimit * (e.chain + 1) := by
  have hread : (Climbing.parse calculator
      { words := ["-", "1", "!", "^", "-", "2", "+", "3"] }).1 = .ok (some (.binary .add
        (.unary .negate (.binary .exponentiate (.unary .factorial (.value "1"))
          (.unary .negate (.value "2")))) (.value "3"))) := rfl
  exact ⟨_, hread, rfl, rfl, rfl, (height_grows_by_folds_alone hread).2.1⟩

end InfixArithmetic

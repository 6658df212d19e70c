import InfixArithmetic.Proofs.ModeAgreement

/-!
Custom grammars.  The two ways of reading agree for every grammar without ties, and for each tie
there is a grammar with no other one and a text that they give different values.
-/

namespace InfixArithmetic

open Climbing (nestingLimit)
open Grammar (calculator)

namespace Tie

def grammar : Tie → Grammar
  | .leftRight => .ofList [
      .trailing ⟨"-", 1, .between .left .subtract⟩,
      .trailing ⟨"^", 1, .between .right .subtract⟩]
  | .behindLeft => .ofList [
      .trailing ⟨"+", 1, .between .left .add⟩,
      .trailing ⟨"!", 1, .behind (.operator .negate)⟩]
  | .behindLeading => .ofList [
      .leading ⟨"-", 1, .operator .negate⟩,
      .trailing ⟨"!", 1, .behind (.operator .square)⟩]
  | .rightLeading => .ofList [
      .leading ⟨"-", 1, .operator .negate⟩,
      .trailing ⟨"^", 1, .between .right .subtract⟩]

def text : Tie → String
  | .leftRight => "1-1^1"
  | .behindLeft => "1+1!"
  | .behindLeading => "-1!"
  | .rightLeading => "-1^1"

def words : Tie → List String
  | .leftRight => ["1", "-", "1", "^", "1"]
  | .behindLeft => ["1", "+", "1", "!"]
  | .behindLeading => ["-", "1", "!"]
  | .rightLeading => ["-", "1", "^", "1"]

def expression : Tie → Expression
  | .leftRight => .binary .subtract (.binary .subtract (.value "1") (.value "1")) (.value "1")
  | .behindLeft => .unary .negate (.binary .add (.value "1") (.value "1"))
  | .behindLeading => .unary .square (.unary .negate (.value "1"))
  | .rightLeading => .binary .subtract (.unary .negate (.value "1")) (.value "1")

def program : Tie → Program
  | .leftRight => [.value "1", .value "1", .value "1",
      .operation (.trailing ⟨"^", 1, .between .right .subtract⟩),
      .operation (.trailing ⟨"-", 1, .between .left .subtract⟩)]
  | .behindLeft => [.value "1", .value "1",
      .operation (.trailing ⟨"!", 1, .behind (.operator .negate)⟩),
      .operation (.trailing ⟨"+", 1, .between .left .add⟩)]
  | .behindLeading => [.value "1",
      .operation (.trailing ⟨"!", 1, .behind (.operator .square)⟩),
      .operation (.leading ⟨"-", 1, .operator .negate⟩)]
  | .rightLeading => [.value "1", .value "1",
      .operation (.trailing ⟨"^", 1, .between .right .subtract⟩),
      .operation (.leading ⟨"-", 1, .operator .negate⟩)]

theorem regular_grammar (t : Tie) : t.grammar.Regular := by
  cases t <;> exact ⟨by decide, by decide, by decide, by decide⟩

theorem tied_grammar_iff (t u : Tie) : t.grammar.Tied u ↔ u = t := by
  cases t <;> cases u <;> decide

theorem words_text (t : Tie) : Text.words (Text.normalize t.text) = t.words := by
  cases t <;> decide

theorem climbing_words (t : Tie) :
    (Climbing.parse t.grammar { words := t.words }).1 = .ok (some t.expression) := by
  cases t <;> rfl

theorem yard_words (t : Tie) : (Yard.parse t.grammar t.words).1 = .ok (some t.program) := by
  cases t <;> rfl

theorem evaluate_normal {t : Tie} {x : Float} (h : t.expression.evaluate = .ok x) :
    evaluate t.grammar .normal t.text = .ok (some x) := by
  simp only [evaluate, evaluateAs, parse, Mode.parse, words_text, climbing_words, h]

theorem evaluate_rpn {t : Tie} {x : Float} (h : t.program.evaluate = .ok x) :
    evaluate t.grammar .rpn t.text = .ok (some x) := by
  simp only [evaluate, evaluateAs, parse, Mode.parse, words_text, yard_words, Except.map,
    Option.map,
    Expression.evaluate, h]

theorem numberOf_one : numberOf "1" = .ok 1.0 := by
  have h : readNumber? "1" = some 1.0 := by decide
  rw [numberOf, h]

theorem values_differ (t : Tie) :
    ∃ x y, t.expression.evaluate = .ok x ∧ t.program.evaluate = .ok y ∧ x ≠ y := by
  have hadd (x y : Float) : BinaryOperator.add.apply x y = x + y := rfl
  have hsub (x y : Float) : BinaryOperator.subtract.apply x y = x - y := rfl
  have hneg (x : Float) : UnaryOperator.negate.apply x = .ok (-x) := rfl
  have hsquare (x : Float) : UnaryOperator.square.apply x = .ok (x * x) := rfl
  cases t with
  | leftRight =>
      refine ⟨1.0 - 1.0 - 1.0, 1.0 - (1.0 - 1.0), ?_, ?_, by decide⟩
      · simp [expression, Expression.evaluate, numberOf_one, hsub, bind, Except.bind, pure,
          Except.pure]
      · simp [program, Program.evaluate, Program.run, Instruction.run, numberOf_one, Except.map,
          Operation.run, BinaryOperator.run, Program.result, hsub]
  | behindLeft =>
      refine ⟨-(1.0 + 1.0), 1.0 + -1.0, ?_, ?_, by decide⟩
      · simp [expression, Expression.evaluate, numberOf_one, hadd, hneg, bind, Except.bind, pure,
          Except.pure]
      · simp [program, Program.evaluate, Program.run, Instruction.run, numberOf_one, Except.map,
          Operation.run, BinaryOperator.run, Wrap.run, Wrap.apply, Program.result, hadd, hneg]
  | behindLeading =>
      refine ⟨-1.0 * -1.0, -(1.0 * 1.0), ?_, ?_, by decide⟩
      · simp [expression, Expression.evaluate, numberOf_one, hneg, hsquare, bind, Except.bind]
      · simp [program, Program.evaluate, Program.run, Instruction.run, numberOf_one, Except.map,
          Operation.run, Wrap.run, Wrap.apply, Program.result, hneg, hsquare]
  | rightLeading =>
      refine ⟨-1.0 - 1.0, -(1.0 - 1.0), ?_, ?_, by decide⟩
      · simp [expression, Expression.evaluate, numberOf_one, hsub, hneg, bind, Except.bind, pure,
          Except.pure]
      · simp [program, Program.evaluate, Program.run, Instruction.run, numberOf_one, Except.map,
          Operation.run, BinaryOperator.run, Wrap.run, Wrap.apply, Program.result, hsub, hneg]

end Tie

theorem custom_modes_agree :
    (∀ g : Grammar, g.Regular → (∀ t, ¬ g.Tied t) → ∀ text,
      evaluate g .normal text = .error (.parsing (.nestingTooDeep nestingLimit)) ∨
        evaluate g .normal text = evaluate g .rpn text) ∧
    ∀ t : Tie, ∃ g : Grammar, g.Regular ∧ (∀ u, g.Tied u ↔ u = t) ∧
      ∃ text x y, evaluate g .normal text = .ok (some x) ∧
        evaluate g .rpn text = .ok (some y) ∧ x ≠ y := by
  constructor
  · intro g hg ht text
    exact evaluate_normal_eq_rpn (hg.aligned ht) text
  · intro t
    obtain ⟨x, y, hx, hy, hne⟩ := t.values_differ
    exact ⟨t.grammar, t.regular_grammar, t.tied_grammar_iff, t.text, x, y,
      Tie.evaluate_normal hx, Tie.evaluate_rpn hy, hne⟩

theorem custom_modes_agree_calculator :
    calculator.Regular ∧ (∀ t, ¬ calculator.Tied t) ∧
      (evaluate calculator .normal "2^-1*3" =
          .error (.parsing (.nestingTooDeep nestingLimit)) ∨
        evaluate calculator .normal "2^-1*3" = evaluate calculator .rpn "2^-1*3") :=
  ⟨regular_calculator, not_tied_calculator,
    custom_modes_agree.1 calculator regular_calculator not_tied_calculator "2^-1*3"⟩

end InfixArithmetic

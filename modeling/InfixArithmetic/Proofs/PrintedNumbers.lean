import InfixArithmetic.Proofs.ModeAgreement
import InfixArithmetic.Proofs.NormalForm
import InfixArithmetic.Proofs.PrintedDigits

/-!
Printed doubles as expressions.  The text of a double is one word, behind the word `-` where it is
negative, and is read as a value or as the negation of one.
-/

namespace InfixArithmetic

open Decimal
open Grammar (calculator)
open Text (isPlain isSymbol Cuts)

namespace Text

theorem words_of_isPlain {word : List Char} (hne : word ≠ [])
    (hword : ∀ c ∈ word, isPlain c = true) :
    words (normalize (String.ofList word)) = [String.ofList word] ∧
      words (normalize (String.ofList ('-' :: word))) = ["-", String.ofList word] := by
  have hchain : word.IsChain Unsquared := IsWord.isChain (.inr ⟨hne, hword, by simp, by simp⟩)
  have hcuts : Cuts (word ++ []) [word] := .run hne hword rfl .nil
  rw [List.append_nil] at hcuts
  constructor
  · rw [words_normalize, String.toList_ofList, spellSquares_eq_self hchain, hcuts.runs_eq]
    rfl
  · have hminus : ('-' :: word).IsChain Unsquared :=
      List.isChain_cons.mpr ⟨fun c _ h => absurd h.1 (by decide), hchain⟩
    rw [words_normalize, String.toList_ofList, spellSquares_eq_self hminus,
      (Cuts.symbol (by decide) hcuts).runs_eq]
    rfl

end Text

section

variable {word : List Char}

theorem parse_value (h : calculator.knows (String.ofList word) = false) :
    (Climbing.parse calculator { words := [String.ofList word] }).1 =
      .ok (some (.value (String.ofList word))) := by
  have hr := Grammar.readOperand_eq_none.mpr h
  simp [Climbing.parse, Climbing.expression, Climbing.nested, Climbing.operand, hr,
    Climbing.nestingLimit, Cursor.descend, Cursor.moveTo, Climbing.Outcome.andThen, Climbing.climb,
    Cursor.ascend]

theorem parse_negated (h : calculator.knows (String.ofList word) = false) :
    (Climbing.parse calculator { words := ["-", String.ofList word] }).1 =
      .ok (some (.unary .negate (.value (String.ofList word)))) := by
  have hr := Grammar.readOperand_eq_none.mpr h
  have hm : calculator.readOperand "-" = .ok (some ⟨"-", 2, .operator .negate⟩) := rfl
  simp [Climbing.parse, Climbing.expression, Climbing.nested, Climbing.operand, hr, hm,
    Climbing.nestingLimit, Cursor.descend, Cursor.moveTo, Climbing.Outcome.andThen, Climbing.climb,
    Cursor.ascend, Climbing.Outcome.map, Leading.opensGroup, openGroup, Wrap.build, Except.map]

theorem evaluate_of_normal {text : String} {e : Expression}
    (h : parse calculator .normal text = .ok (some e)) (mode : Mode) :
    evaluate calculator mode text = (e.evaluate.map some).mapError .evaluating := by
  have hnormal : evaluate calculator .normal text =
      (e.evaluate.map some).mapError .evaluating := by
    simp only [evaluate, evaluateAs, h]
    cases e.evaluate <;> rfl
  cases mode with
  | normal => exact hnormal
  | rpn =>
      rcases evaluate_normal_eq_rpn aligned_calculator text with hdeep | hsame
      · rw [hnormal] at hdeep
        cases hx : e.evaluate <;> simp [hx, Except.map, Except.mapError] at hdeep
      · rw [← hsame, hnormal]

theorem evaluate_signed (negative : Bool) (hne : word ≠ []) (hword : ∀ c ∈ word, isPlain c = true)
    (hknows : calculator.knows (String.ofList word) = false) (mode : Mode) :
    evaluate calculator mode (String.ofList (signed negative word)) =
      ((numberOf (String.ofList word)).map fun x =>
        some (if negative then -x else x)).mapError .evaluating := by
  obtain ⟨hvalue, hnegated⟩ := Text.words_of_isPlain hne hword
  cases negative with
  | false =>
      have hparse : parse calculator .normal (String.ofList (signed false word)) =
          .ok (some (.value (String.ofList word))) := by
        rw [parse, signed, if_neg (by decide), hvalue]
        exact parse_value hknows
      exact evaluate_of_normal hparse mode
  | true =>
      have hparse : parse calculator .normal (String.ofList (signed true word)) =
          .ok (some (.unary .negate (.value (String.ofList word)))) := by
        rw [parse, signed, if_pos rfl, hnegated]
        exact parse_negated hknows
      rw [evaluate_of_normal hparse mode]
      simp only [Expression.evaluate]
      cases numberOf (String.ofList word) <;> rfl

end

theorem isPlain_of_isDigit {c : Char} (h : c.isDigit = true) : isPlain c = true := by
  have hlow : 48 ≤ c.toNat := by
    simp only [Char.isDigit, Bool.and_eq_true, decide_eq_true_eq] at h
    exact h.1
  have hhigh : c.toNat ≤ 57 := by
    simp only [Char.isDigit, Bool.and_eq_true, decide_eq_true_eq] at h
    exact h.2
  by_contra hc
  rcases Text.isPlain_eq_false.mp (Bool.eq_false_iff.mpr hc) with hb | hs
  · simp only [Text.isBlank, Bool.or_eq_true, Bool.and_eq_true, decide_eq_true_eq, beq_iff_eq] at hb
    omega
  · simp only [isSymbol, List.mem_cons, List.not_mem_nil, or_false, decide_eq_true_eq] at hs
    rcases hs with rfl | rfl | rfl | rfl | rfl | rfl | rfl | rfl <;> cases h

theorem not_isDigit_of_knows {word : String} (h : calculator.knows word = true) :
    ∀ c ∈ word.toList, c.isDigit = false := by
  have hleading : ∀ op ∈ calculator.leading, op.name.toList.all (!·.isDigit) = true := by decide
  have htrailing : ∀ op ∈ calculator.trailing, op.name.toList.all (!·.isDigit) = true := by decide
  have hall : word.toList.all (!·.isDigit) = true := by
    rcases Bool.or_eq_true_iff.mp h with hk | hk <;>
      obtain ⟨op, hop⟩ := Option.isSome_iff_exists.mp hk
    · obtain ⟨hm, rfl⟩ := Grammar.trailing?_eq_some hop
      exact htrailing op hm
    · obtain ⟨hm, rfl⟩ := Grammar.leading?_eq_some hop
      exact hleading op hm
  simpa using hall

theorem Printed.isPlain {x : Float} {negative : Bool} {digits : List Char}
    (h : Printed x negative digits) : digits ≠ [] ∧ (∀ c ∈ digits, isPlain c = true) ∧
      calculator.knows (String.ofList digits) = false := by
  obtain ⟨whole, fraction, value, rfl, hw⟩ := h.form
  obtain ⟨d, rest, rfl⟩ := List.exists_cons_of_ne_nil hw.whole_ne_nil
  have hd : d.isDigit = true := hw.isDigit_whole d List.mem_cons_self
  refine ⟨by simp, fun c hc => ?_, Bool.eq_false_iff.mpr fun hk => ?_⟩
  · rcases List.mem_append.mp hc with hc | hc
    · exact isPlain_of_isDigit (hw.isDigit_whole c hc)
    · rw [Numeral.pointed] at hc
      split at hc
      · cases hc
      · rcases List.mem_cons.mp hc with rfl | hc
        · decide
        · exact isPlain_of_isDigit (hw.isDigit_fraction c hc)
  · have := not_isDigit_of_knows hk d (by simp)
    rw [hd] at this
    cases this

theorem evaluate_unreadable {word : List Char} (negative : Bool) (hne : word ≠ [])
    (hword : ∀ c ∈ word, Text.isPlain c = true)
    (hknows : calculator.knows (String.ofList word) = false)
    (hread : readNumber? (String.ofList word) = none) (mode : Mode) :
    evaluate calculator mode (String.ofList (signed negative word)) =
      .error (.evaluating (.invalidNumber (String.ofList word))) := by
  rw [evaluate_signed negative hne hword hknows mode, numberOf, hread]
  rfl

/-- Doubles are equal only with equal bits. -/
theorem printed_numbers_read_back (mode : Mode) (x : Float) :
    evaluate calculator mode (text x) =
      if x.isFinite then .ok (some x)
      else .error (.evaluating (.invalidNumber (if x.isNaN then "NaN" else "inf"))) := by
  cases hfinite : x.isFinite with
  | true =>
      obtain ⟨negative, digits, h⟩ := printed_of_isFinite hfinite
      obtain ⟨hne, hplain, hknows⟩ := h.isPlain
      rw [h.text_eq, evaluate_signed negative hne hplain hknows mode, numberOf, h.reads_abs]
      exact congrArg (fun y => Except.ok (some y)) h.eq_abs.symm
  | false =>
      have hunpack : x.toModel.unpack.isFinite = false := hfinite
      have hnan : x.isNaN = x.toModel.unpack.isNaN := rfl
      cases hx : x.toModel.unpack with
      | finite s m e hpos =>
          rw [hx] at hunpack
          cases hunpack
      | zero s =>
          rw [hx] at hunpack
          cases hunpack
      | infinity s =>
          rw [hnan, hx, text, Binary64.ofFloat, hx]
          have hknows : calculator.knows "inf" = false := by decide
          have hplain : ∀ c ∈ ['i', 'n', 'f'], isPlain c = true := by simp; decide
          exact evaluate_unreadable _ (by decide) hplain hknows rfl mode
      | notANumber =>
          rw [hnan, hx, text, Binary64.ofFloat, hx]
          have hknows : calculator.knows "NaN" = false := by decide
          have hplain : ∀ c ∈ ['N', 'a', 'N'], isPlain c = true := by simp; decide
          exact evaluate_unreadable false (by decide) hplain hknows rfl mode

end InfixArithmetic

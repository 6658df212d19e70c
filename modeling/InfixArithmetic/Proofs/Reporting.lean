import InfixArithmetic.Proofs.ModeAgreement
import InfixArithmetic.Report

/-!
What a report depends on: neither the outline nor the postfix text can fail, and without the outline
a report does not tell the two modes apart.
-/

namespace InfixArithmetic

open Climbing (nestingLimit)
open Grammar (calculator)

namespace Options

variable (o : Options) {text : String} {e : Expression} {p : Program} {x : Float}

def rendering (o : Options) (e : Expression) (p : Program) (x : Float) : String :=
  (if o.tree then e.drawing else "") ++
    (if o.program then "Postfix: " ++ p.text ++ "\n" else "") ++
    "Result: " ++ Decimal.text x ++ "\n"

theorem layout_eq (hp : e.toProgram calculator = .ok p) (x : Float) :
    o.layout e x = .ok (o.rendering e p x) := by
  rw [layout, programLine, rendering, hp]
  cases o.program <;> rfl

theorem report_of_parsing {cause : SyntaxError}
    (h : parse calculator o.mode text = .error cause) :
    o.report text = .error ⟨.parsing text, .parsing cause⟩ := by
  rw [report, h]

theorem report_of_none (h : parse calculator o.mode text = .ok none) :
    o.report text = .ok none := by
  rw [report, h]

theorem report_of_evaluating {cause : ArithmeticError}
    (h : parse calculator o.mode text = .ok (some e)) (hx : e.evaluate = .error cause) :
    o.report text = .error ⟨.evaluating text, .evaluating cause⟩ := by
  simp only [report, h, hx]

theorem report_of_value (h : parse calculator o.mode text = .ok (some e))
    (hp : e.toProgram calculator = .ok p) (hx : e.evaluate = .ok x) :
    o.report text = .ok (some (o.rendering e p x)) := by
  simp only [report, h, hx, o.layout_eq hp x]

theorem rendering_without_tree (mode mode' : Mode) (program : Bool) (e e' : Expression)
    (p : Program) (x : Float) :
    rendering ⟨mode, false, program⟩ e p x = rendering ⟨mode', false, program⟩ e' p x := by
  simp only [rendering, Bool.false_eq_true, if_false]

theorem report_settings (mode : Mode) (text : String) :
    (∃ complaint : Complaint, complaint.stage ≠ .converting ∧
      ∀ tree program, report ⟨mode, tree, program⟩ text = .error complaint) ∨
    (∀ tree program, report ⟨mode, tree, program⟩ text = .ok none) ∨
    ∃ e p x, parse calculator mode text = .ok (some e) ∧ e.toProgram calculator = .ok p ∧
      e.evaluate = .ok x ∧
      ∀ tree program, report ⟨mode, tree, program⟩ text =
        .ok (some (rendering ⟨mode, tree, program⟩ e p x)) := by
  cases h : parse calculator mode text with
  | error cause =>
      exact .inl ⟨⟨.parsing text, .parsing cause⟩, nofun, fun _ _ => report_of_parsing _ h⟩
  | ok found =>
      cases found with
      | none => exact .inr (.inl fun _ _ => report_of_none _ h)
      | some e =>
          cases hx : e.evaluate with
          | error cause =>
              exact .inl ⟨⟨.evaluating text, .evaluating cause⟩, nofun,
                fun _ _ => report_of_evaluating _ h hx⟩
          | ok x =>
              obtain ⟨p, hp⟩ := Postfix.exists_calculator e
              exact .inr (.inr ⟨e, p, x, rfl, hp.toProgram, hx,
                fun tree program => report_of_value ⟨mode, tree, program⟩ h hp.toProgram hx⟩)

theorem report_normal_eq_rpn (text : String) (program : Bool) :
    report ⟨.normal, false, program⟩ text =
        .error ⟨.parsing text, .parsing (.nestingTooDeep nestingLimit)⟩ ∨
      report ⟨.normal, false, program⟩ text = report ⟨.rpn, false, program⟩ text := by
  rcases parse_rpn_of_normal aligned_calculator text with
    hn | ⟨cause, hn, hr⟩ | ⟨hn, hr⟩ | ⟨e, p, hn, hr, hp, hfree⟩
  · exact .inl (report_of_parsing ⟨.normal, false, program⟩ hn)
  · right
    rw [report_of_parsing ⟨.normal, false, program⟩ hn,
      report_of_parsing ⟨.rpn, false, program⟩ hr]
  · right
    rw [report_of_none ⟨.normal, false, program⟩ hn, report_of_none ⟨.rpn, false, program⟩ hr]
  · right
    have hv : (Expression.program p).evaluate = e.evaluate := hp.evaluate_eq hfree
    cases hx : e.evaluate with
    | error cause =>
        rw [report_of_evaluating ⟨.normal, false, program⟩ hn hx,
          report_of_evaluating ⟨.rpn, false, program⟩ hr (hv.trans hx)]
    | ok x =>
        rw [report_of_value ⟨.normal, false, program⟩ hn hp.toProgram hx,
          report_of_value ⟨.rpn, false, program⟩ hr rfl (hv.trans hx), rendering_without_tree]

end Options

open Options in
theorem report_settings_keep_the_outcome (text : String) :
    (∀ mode,
      (∃ complaint : Complaint, complaint.stage ≠ .converting ∧
        ∀ tree program, report ⟨mode, tree, program⟩ text = .error complaint) ∨
      (∀ tree program, report ⟨mode, tree, program⟩ text = .ok none) ∨
      ∃ e p x, parse calculator mode text = .ok (some e) ∧ e.toProgram calculator = .ok p ∧
        e.evaluate = .ok x ∧
        ∀ tree program, report ⟨mode, tree, program⟩ text =
          .ok (some ((if tree then e.drawing else "") ++
            (if program then "Postfix: " ++ p.text ++ "\n" else "") ++
            "Result: " ++ Decimal.text x ++ "\n"))) ∧
    ∀ program, report ⟨.normal, false, program⟩ text =
        .error ⟨.parsing text, .parsing (.nestingTooDeep nestingLimit)⟩ ∨
      report ⟨.normal, false, program⟩ text = report ⟨.rpn, false, program⟩ text :=
  ⟨fun mode => report_settings mode text, report_normal_eq_rpn text⟩

end InfixArithmetic

import InfixArithmetic.Evaluation
import InfixArithmetic.Proofs.Guarded

/-!
The two ways of reading agree.  Where no kinds of operations tie, climbing and the yard read the
same expressions and give the same values and errors, unless climbing would nest too deep; each tie
alone already makes them disagree.
-/

namespace InfixArithmetic

open Climbing (nestingLimit)
open Grammar (calculator)

theorem Postfix.ne_nil {g : Grammar} {e : Expression} {p : Program} (h : Postfix g e p)
    (he : e.programFree = true) : p ≠ [] := by
  cases h with
  | program p => cases he
  | _ => simp

section

variable {g : Grammar} {words : List String}

theorem yard_of_guarded {r : Except SyntaxError Program} {rest : List String}
    (h : Yard.guarded g {} words = (r, rest)) :
    r = .error (.nestingTooDeep nestingLimit) ∨
      (Yard.parse g words).1 = r.map fun p => if p.isEmpty then none else some p := by
  have hf := Yard.guarded_fst (g := g) {} words
  rw [h] at hf
  rcases hf with hn | hr
  · exact Or.inl hn
  · exact Or.inr (by rw [Yard.parse_fst, ← hr])

theorem yard_of_climbing_none (hg : g.Aligned)
    (h : (Climbing.parse g { words }).1 = .ok none) : (Yard.parse g words).1 = .ok none := by
  have ht := guarded_of_parse hg words
  generalize Climbing.parse g { words } = o at h ht
  obtain ⟨r, after⟩ := o
  obtain rfl : r = .ok none := h
  obtain rfl : words = [] := ht
  rfl

theorem yard_of_climbing_some (hg : g.Aligned) {e : Expression}
    (h : (Climbing.parse g { words }).1 = .ok (some e)) :
    e.programFree = true ∧ ∃ p, Postfix g e p ∧ (Yard.parse g words).1 = .ok (some p) := by
  have ht := guarded_of_parse hg words
  generalize Climbing.parse g { words } = o at h ht
  obtain ⟨r, after⟩ := o
  obtain rfl : r = .ok (some e) := h
  obtain ⟨hfree, p, hp, hz⟩ := ht
  refine ⟨hfree, p, hp, ?_⟩
  rcases yard_of_guarded hz with hn | hr
  · cases hn
  · rw [hr]
    simp [Except.map, hp.ne_nil hfree]

theorem yard_of_climbing_error (hg : g.Aligned) {cause : SyntaxError}
    (h : (Climbing.parse g { words }).1 = .error cause) :
    cause = .nestingTooDeep nestingLimit ∨ (Yard.parse g words).1 = .error cause := by
  have ht := guarded_of_parse hg words
  generalize Climbing.parse g { words } = o at h ht
  obtain ⟨r, after⟩ := o
  obtain rfl : r = .error cause := h
  rcases yard_of_guarded ht with hn | hr
  · exact Or.inl (Except.error.inj hn)
  · exact Or.inr hr

theorem parse_rpn_of_normal (hg : g.Aligned) (text : String) :
    parse g .normal text = .error (.nestingTooDeep nestingLimit) ∨
      (∃ cause, parse g .normal text = .error cause ∧ parse g .rpn text = .error cause) ∨
      (parse g .normal text = .ok none ∧ parse g .rpn text = .ok none) ∨
      ∃ e p, parse g .normal text = .ok (some e) ∧ parse g .rpn text = .ok (some (.program p)) ∧
        Postfix g e p ∧ e.programFree = true := by
  simp only [parse, Mode.parse]
  cases h : (Climbing.parse g { words := Text.words (Text.normalize text) }).1 with
  | error cause =>
      rcases yard_of_climbing_error hg h with rfl | hy
      · exact .inl rfl
      · exact .inr (.inl ⟨cause, rfl, by rw [hy]; rfl⟩)
  | ok found =>
      cases found with
      | none =>
          rw [yard_of_climbing_none hg h]
          exact .inr (.inr (.inl ⟨rfl, rfl⟩))
      | some e =>
          obtain ⟨hfree, p, hp, hy⟩ := yard_of_climbing_some hg h
          rw [hy]
          exact .inr (.inr (.inr ⟨e, p, rfl, rfl, hp, hfree⟩))

theorem evaluate_normal_eq_rpn (hg : g.Aligned) (text : String) :
    evaluate g .normal text = .error (.parsing (.nestingTooDeep nestingLimit)) ∨
      evaluate g .normal text = evaluate g .rpn text := by
  simp only [evaluate, evaluateAs]
  rcases parse_rpn_of_normal hg text with
    hn | ⟨cause, hn, hr⟩ | ⟨hn, hr⟩ | ⟨e, p, hn, hr, hp, hfree⟩
  · exact .inl (by rw [hn])
  · exact .inr (by rw [hn, hr])
  · exact .inr (by rw [hn, hr])
  · exact .inr (by simp only [hn, hr, Expression.evaluate, hp.evaluate_eq hfree])

end

theorem regular_calculator : calculator.Regular :=
  ⟨by decide, by decide, by decide, by decide⟩

theorem not_tied_calculator (t : Tie) : ¬ calculator.Tied t := by
  cases t <;> decide

theorem aligned_calculator : calculator.Aligned :=
  regular_calculator.aligned not_tied_calculator

theorem climbing_and_yard_agree (words : List String) :
    ((Climbing.parse calculator { words }).1 = .ok none →
      (Yard.parse calculator words).1 = .ok none) ∧
    (∀ e, (Climbing.parse calculator { words }).1 = .ok (some e) →
      ∃ p, e.toProgram calculator = .ok p ∧ (Yard.parse calculator words).1 = .ok (some p)) ∧
    (∀ cause, (Climbing.parse calculator { words }).1 = .error cause →
      (∀ limit, cause ≠ .nestingTooDeep limit) →
        (Yard.parse calculator words).1 = .error cause) ∧
    ∀ text, evaluate calculator .normal text = .error (.parsing (.nestingTooDeep nestingLimit)) ∨
      evaluate calculator .normal text = evaluate calculator .rpn text := by
  refine ⟨yard_of_climbing_none aligned_calculator, ?_, ?_,
    evaluate_normal_eq_rpn aligned_calculator⟩
  · intro e h
    obtain ⟨_, p, hp, hy⟩ := yard_of_climbing_some aligned_calculator h
    exact ⟨p, hp.toProgram, hy⟩
  · intro cause h hn
    rcases yard_of_climbing_error aligned_calculator h with rfl | hy
    · exact absurd rfl (hn nestingLimit)
    · exact hy

end InfixArithmetic

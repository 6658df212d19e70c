import InfixArithmetic.Proofs.Serialization

/-!
Programs of expressions through the calculator's grammar.  Each operator has its operation there, so
every expression has a program, and the program has the expression's value.
-/

namespace InfixArithmetic

open Grammar (calculator)

def Expression.programFree : Expression → Bool
  | .value _ | .literal _ => true
  | .binary _ left right => left.programFree && right.programFree
  | .unary _ operand => operand.programFree
  | .program _ => false

theorem Wrap.programFree_build (wrap : Wrap) (e : Expression) :
    (wrap.build e).programFree = e.programFree := by
  cases wrap <;> rfl

theorem isStructural_of_requireWhole {function : WholeFunction} {f : Nat → Float} {x : Float}
    {cause : ArithmeticError} (h : (requireWhole function x).map f = .error cause) :
    cause.isStructural = false := by
  rw [requireWhole] at h
  split at h <;> cases h
  rfl

theorem isStructural_of_factorialOf {x : Float} {cause : ArithmeticError}
    (h : factorialOf x = .error cause) : cause.isStructural = false := by
  rw [factorialOf] at h
  split at h
  · cases h
    rfl
  · exact isStructural_of_requireWhole h

theorem isStructural_of_fibonacciOf {x : Float} {cause : ArithmeticError}
    (h : fibonacciOf x = .error cause) : cause.isStructural = false := by
  rw [fibonacciOf] at h
  split at h
  · cases h
    rfl
  · split at h
    · cases h
      rfl
    · exact isStructural_of_requireWhole h

theorem UnaryOperator.isStructural_of_apply {f : UnaryOperator} {x : Float}
    {cause : ArithmeticError} (h : f.apply x = .error cause) : cause.isStructural = false := by
  cases f with
  | factorial => exact isStructural_of_factorialOf h
  | fibonacci => exact isStructural_of_fibonacciOf h
  | square | sine | cosine | tangent | negate | identity => cases h

theorem isStructural_of_numberOf {word : String} {cause : ArithmeticError}
    (h : numberOf word = .error cause) : cause.isStructural = false := by
  rw [numberOf] at h
  split at h <;> cases h
  rfl

namespace Expression

theorem isStructural_of_evaluate {e : Expression} (he : e.programFree = true)
    {cause : ArithmeticError} (h : e.evaluate = .error cause) : cause.isStructural = false := by
  induction e generalizing cause with
  | value word => exact isStructural_of_numberOf h
  | literal x => cases h
  | program p => cases he
  | unary f operand ih =>
      simp only [evaluate] at h
      cases hx : operand.evaluate with
      | error other =>
          rw [hx] at h
          cases h
          exact ih he hx
      | ok x =>
          rw [hx] at h
          exact UnaryOperator.isStructural_of_apply h
  | binary f left right ihl ihr =>
      simp only [programFree, Bool.and_eq_true] at he
      simp only [evaluate] at h
      cases hx : left.evaluate with
      | error other =>
          rw [hx] at h
          cases h
          exact ihl he.1 hx
      | ok x =>
          rw [hx] at h
          cases hy : right.evaluate with
          | error other =>
              rw [hy] at h
              cases h
              exact ihr he.2 hy
          | ok y =>
              rw [hy] at h
              cases h

theorem not_malformed {e : Expression} (he : e.programFree = true) : ¬ Malformed e.evaluate := by
  rintro ⟨cause, hc, hs⟩
  simp [isStructural_of_evaluate he hc] at hs

end Expression

theorem Postfix.evaluate_eq {g : Grammar} {e : Expression} {p : Program} (h : Postfix g e p)
    (he : e.programFree = true) : p.evaluate = e.evaluate := by
  rcases h.evaluate with hm | hv
  · exact absurd hm (Expression.not_malformed he)
  · exact hv

/-! The calculator's tables, read from an operator to its operation and back. -/

theorem calculator_binary (f : BinaryOperator) :
    ∃ op a, calculator.trailing? f.symbol = some op ∧ op.form = .between a f := by
  cases f <;> exact ⟨_, _, rfl, rfl⟩

theorem calculator_leads {f : UnaryOperator} (h : f.leads = true) :
    ∃ op, calculator.leading? f.symbol = some op ∧ op.opensGroup = false ∧
      op.wrap = .operator f := by
  cases f with
  | square | factorial => cases h
  | sine | cosine | tangent | fibonacci | negate | identity => exact ⟨_, rfl, rfl, rfl⟩

theorem calculator_trails {f : UnaryOperator} (h : f.leads = false) :
    ∃ op, calculator.trailing? f.symbol = some op ∧ op.closesGroup = false ∧
      op.form = .behind (.operator f) := by
  cases f with
  | square | factorial => exact ⟨_, rfl, rfl, rfl⟩
  | sine | cosine | tangent | fibonacci | negate | identity => cases h

theorem mem_leading_calculator {op : Leading} (h : op ∈ calculator.leading)
    (hg : op.opensGroup = false) :
    ∃ f, op.wrap = .operator f ∧ f.leads = true ∧ calculator.leading? f.symbol = some op := by
  have hm : op ∈ [⟨"(", 100, .group⟩, ⟨"fib", 5, .operator .fibonacci⟩,
      ⟨"tan", 5, .operator .tangent⟩, ⟨"cos", 5, .operator .cosine⟩, ⟨"sin", 5, .operator .sine⟩,
      ⟨"-", 2, .operator .negate⟩, (⟨"+", 2, .operator .identity⟩ : Leading)] := h
  simp only [List.mem_cons, List.not_mem_nil, or_false] at hm
  rcases hm with rfl | rfl | rfl | rfl | rfl | rfl | rfl
  · cases hg
  all_goals exact ⟨_, rfl, rfl, rfl⟩

theorem mem_trailing_calculator {op : Trailing} (h : op ∈ calculator.trailing) :
    op.closesGroup = true ∨
      (∃ f, op.form = .behind (.operator f) ∧ op.closesGroup = false ∧ f.leads = false ∧
        calculator.trailing? f.symbol = some op) ∨
      ∃ a f, op.form = .between a f ∧ calculator.trailing? f.symbol = some op := by
  have hm : op ∈ [⟨")", -1, .behind .group⟩, ⟨"!", 4, .behind (.operator .factorial)⟩,
      ⟨"**", 4, .behind (.operator .square)⟩, ⟨"^", 4, .between .right .exponentiate⟩,
      ⟨"/", 3, .between .left .divide⟩, ⟨"*", 3, .between .left .multiply⟩,
      ⟨"-", 2, .between .left .subtract⟩, (⟨"+", 2, .between .left .add⟩ : Trailing)] := h
  simp only [List.mem_cons, List.not_mem_nil, or_false] at hm
  rcases hm with rfl | rfl | rfl | hm
  · exact Or.inl rfl
  · exact Or.inr (Or.inl ⟨_, rfl, rfl, rfl, rfl⟩)
  · exact Or.inr (Or.inl ⟨_, rfl, rfl, rfl, rfl⟩)
  · rcases hm with rfl | rfl | rfl | rfl | rfl <;> exact Or.inr (Or.inr ⟨_, _, rfl, rfl⟩)

namespace Postfix

variable {e : Expression} {p : Program}

theorem toProgram (h : Postfix calculator e p) : e.toProgram calculator = .ok p := by
  induction h with
  | value word => rfl
  | literal x => rfl
  | program p => rfl
  | leading hop hg _ ih =>
      obtain ⟨f, hw, hf, hl⟩ := mem_leading_calculator hop hg
      rw [hw]
      simp [Wrap.build, Expression.toProgram, ih, Grammar.unaryInstruction, hf, Grammar.getLeading,
        hl, bind, Except.bind, Except.map, pure, Except.pure]
  | behind hop hf hg _ ih =>
      rcases mem_trailing_calculator hop with hc | ⟨f, hw, _, hl, ht⟩ | ⟨a, f, hw, _⟩
      · simp [hg] at hc
      · obtain rfl := Form.behind.inj (hf.symm.trans hw)
        simp [Wrap.build, Expression.toProgram, ih, Grammar.unaryInstruction, hl,
          Grammar.getTrailing, ht, bind, Except.bind, Except.map, pure, Except.pure]
      · cases hf.symm.trans hw
  | between hop hf _ _ ihl ihr =>
      rcases mem_trailing_calculator hop with hc | ⟨f, hw, _⟩ | ⟨a, f, hw, ht⟩
      · simp [Trailing.closesGroup, hf] at hc
      · cases hf.symm.trans hw
      · obtain ⟨rfl, rfl⟩ := Form.between.inj (hf.symm.trans hw)
        simp [Expression.toProgram, ihl, ihr, Grammar.binaryInstruction, Grammar.getTrailing, ht,
          bind, Except.bind, Except.map, pure, Except.pure]

theorem exists_calculator (e : Expression) : ∃ p, Postfix calculator e p := by
  induction e with
  | value word => exact ⟨_, .value word⟩
  | literal x => exact ⟨_, .literal x⟩
  | program p => exact ⟨_, .program p⟩
  | binary f left right ihl ihr =>
      obtain ⟨p, hp⟩ := ihl
      obtain ⟨q, hq⟩ := ihr
      obtain ⟨op, a, ht, hf⟩ := calculator_binary f
      exact ⟨_, .between (List.mem_of_find?_eq_some ht) hf hp hq⟩
  | unary f operand ih =>
      obtain ⟨p, hp⟩ := ih
      cases hl : f.leads with
      | true =>
          obtain ⟨op, ho, hg, hw⟩ := calculator_leads hl
          have h := Postfix.leading (List.mem_of_find?_eq_some ho) hg hp
          rw [hw] at h
          exact ⟨_, h⟩
      | false =>
          obtain ⟨op, ho, hg, hf⟩ := calculator_trails hl
          exact ⟨_, .behind (List.mem_of_find?_eq_some ho) hf hg hp⟩

end Postfix

theorem serialization_keeps_value (e : Expression) :
    ∃ p, e.toProgram calculator = .ok p ∧
      (∀ x, e.evaluate = .ok x → p.evaluate = .ok x) ∧
      (∀ cause, e.evaluate = .error cause → cause ≠ .stackUnderflow →
        (∀ count, cause ≠ .unconsumedOperands count) → p.evaluate = .error cause) ∧
      (e.programFree = true → p.evaluate = e.evaluate) := by
  obtain ⟨p, hp⟩ := Postfix.exists_calculator e
  refine ⟨p, hp.toProgram, ?_, ?_, hp.evaluate_eq⟩
  · intro x hx
    rcases hp.evaluate with ⟨cause, hc, _⟩ | hv
    · cases hc.symm.trans hx
    · exact hv.trans hx
  · intro cause hx hu hn
    rcases hp.evaluate with ⟨other, hc, hs⟩ | hv
    · obtain rfl : other = cause := Except.error.inj (hc.symm.trans hx)
      cases other with
      | stackUnderflow => exact absurd rfl hu
      | unconsumedOperands count => exact absurd rfl (hn count)
      | _ => cases hs
    · exact hv.trans hx

end InfixArithmetic

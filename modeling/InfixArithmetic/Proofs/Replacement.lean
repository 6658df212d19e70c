import InfixArithmetic.Proofs.Groups
import InfixArithmetic.Proofs.Legibility

/-!
Groups in the place of values.  Where a value stands, any accepted words can stand in a group: their
program comes in the place of the value in the program around it, and their expression in the place
of the value in the expression around it.
-/

namespace InfixArithmetic

open Grammar (calculator)

def Expression.values : Expression → List String
  | .value word => [word]
  | .literal _ => []
  | .binary _ left right => left.values ++ right.values
  | .unary _ operand => operand.values
  | .program p => p.values

/-- An expression with an open place. -/
inductive Context where
  | place
  | leftOf (f : BinaryOperator) (c : Context) (right : Expression)
  | rightOf (f : BinaryOperator) (left : Expression) (c : Context)
  | under (f : UnaryOperator) (c : Context)

namespace Context

def fill : Context → Expression → Expression
  | .place, e => e
  | .leftOf f c right, e => .binary f (c.fill e) right
  | .rightOf f left c, e => .binary f left (c.fill e)
  | .under f c, e => .unary f (c.fill e)

def valuesBefore : Context → List String
  | .place => []
  | .leftOf _ c _ => c.valuesBefore
  | .rightOf _ left c => left.values ++ c.valuesBefore
  | .under _ c => c.valuesBefore

def wrap (c : Context) : Wrap → Context
  | .operator f => .under f c
  | .group => c

theorem fill_wrap (c : Context) (wrap : Wrap) (e : Expression) :
    (c.wrap wrap).fill e = wrap.build (c.fill e) := by
  cases wrap <;> rfl

theorem valuesBefore_wrap (c : Context) (wrap : Wrap) :
    (c.wrap wrap).valuesBefore = c.valuesBefore := by
  cases wrap <;> rfl

end Context

theorem Wrap.values_build (wrap : Wrap) (e : Expression) : (wrap.build e).values = e.values := by
  cases wrap <;> rfl

theorem Postfix.values {g : Grammar} {e : Expression} {p : Program} (h : Postfix g e p) :
    p.values = e.values := by
  induction h with
  | value | literal | program => rfl
  | leading _ _ _ ih | behind _ _ _ _ ih =>
      rw [Program.values_append, ih, Wrap.values_build]
      exact List.append_nil _
  | between _ _ _ _ ihl ihr =>
      rw [Program.values_append, Program.values_append, ihl, ihr]
      exact List.append_nil _

/-- Where a value stands in a program, and where it stands in the expression. -/
structure Locates (g : Grammar) (c : Context) (before after : Program) : Prop where
  values : c.valuesBefore = before.values
  fills : ∀ e p, Postfix g e p → e.programFree = true →
    Postfix g (c.fill e) (before ++ p ++ after) ∧ (c.fill e).programFree = true

namespace Locates

variable {g : Grammar} {c : Context} {before after p q : Program} {e left right : Expression}

theorem place : Locates g .place [] [] where
  values := rfl
  fills e p hp he := by simpa [Context.fill] using And.intro hp he

theorem wrap {wrap : Wrap} {i : Instruction} (h : Locates g c before after)
    (hw : ∀ e p, Postfix g e p → Postfix g (wrap.build e) (p ++ [i])) :
    Locates g (c.wrap wrap) before (after ++ [i]) where
  values := by rw [Context.valuesBefore_wrap, h.values]
  fills e p hp he := by
    obtain ⟨hfill, hfree⟩ := h.fills e p hp he
    rw [Context.fill_wrap, Wrap.programFree_build]
    exact ⟨by simpa using hw _ _ hfill, hfree⟩

theorem leftOf {f : BinaryOperator} {i : Instruction} (h : Locates g c before after)
    (hj : ∀ left p, Postfix g left p → Postfix g (.binary f left right) (p ++ q ++ [i]))
    (hr : right.programFree = true) :
    Locates g (.leftOf f c right) before (after ++ q ++ [i]) where
  values := h.values
  fills e p hp he := by
    obtain ⟨hfill, hfree⟩ := h.fills e p hp he
    exact ⟨by simpa [Context.fill] using hj _ _ hfill,
      by simp [Context.fill, Expression.programFree, hfree, hr]⟩

theorem rightOf {f : BinaryOperator} {i : Instruction} (h : Locates g c before after)
    (hj : ∀ right p, Postfix g right p → Postfix g (.binary f left right) (q ++ p ++ [i]))
    (hq : Postfix g left q) (hl : left.programFree = true) :
    Locates g (.rightOf f left c) (q ++ before) (after ++ [i]) where
  values := by rw [Context.valuesBefore, h.values, Program.values_append, hq.values]
  fills e p hp he := by
    obtain ⟨hfill, hfree⟩ := h.fills e p hp he
    exact ⟨by simpa [Context.fill] using hj _ _ hfill,
      by simp [Context.fill, Expression.programFree, hfree, hl]⟩

end Locates

theorem append_eq_append_cons {α : Type} {p q before after : List α} {x : α}
    (h : p ++ q = before ++ x :: after) :
    (∃ rest, p = before ++ x :: rest ∧ after = rest ++ q) ∨
      ∃ rest, before = p ++ rest ∧ q = rest ++ x :: after := by
  rcases List.append_eq_append_iff.mp h with ⟨rest, hb, hq⟩ | ⟨rest, hp, hx⟩
  · exact Or.inr ⟨rest, hb, hq⟩
  · rcases List.append_eq_cons_iff.mp hx.symm with ⟨rfl, hq⟩ | ⟨later, rfl, ha⟩
    · exact Or.inr ⟨[], by simpa using hp.symm, hq⟩
    · exact Or.inl ⟨later, hp, ha⟩

theorem value_in_append_operation {p before after : Program} {op : Operation} {word : String}
    (h : p ++ [.operation op] = before ++ .value word :: after) :
    ∃ rest, p = before ++ .value word :: rest ∧ after = rest ++ [.operation op] := by
  rcases append_eq_append_cons h with hleft | ⟨rest, _, hop⟩
  · exact hleft
  · simp [List.singleton_eq_append_iff] at hop

theorem Postfix.locates {g : Grammar} {e : Expression} {p before after : Program} {word : String}
    (h : Postfix g e p) (he : e.programFree = true) (hp : p = before ++ .value word :: after) :
    ∃ c : Context, e = c.fill (.value word) ∧ Locates g c before after := by
  induction h generalizing before after with
  | value found =>
      have hone : before = [] ∧ word = found ∧ after = [] := by
        simpa [List.singleton_eq_append_iff] using hp
      obtain ⟨rfl, rfl, rfl⟩ := hone
      exact ⟨.place, rfl, .place⟩
  | literal x => simp [List.singleton_eq_append_iff] at hp
  | program p => cases he
  | leading hop hg _ ih =>
      rw [Wrap.programFree_build] at he
      obtain ⟨rest, hrest, rfl⟩ := value_in_append_operation hp
      obtain ⟨c, rfl, hc⟩ := ih he hrest
      exact ⟨c.wrap _, (c.fill_wrap _ _).symm, hc.wrap fun _ _ => .leading hop hg⟩
  | behind hop hf hg _ ih =>
      rw [Wrap.programFree_build] at he
      obtain ⟨rest, hrest, rfl⟩ := value_in_append_operation hp
      obtain ⟨c, rfl, hc⟩ := ih he hrest
      exact ⟨c.wrap _, (c.fill_wrap _ _).symm, hc.wrap fun _ _ => .behind hop hf hg⟩
  | between hop hf hl hr ihl ihr =>
      simp only [Expression.programFree, Bool.and_eq_true] at he
      obtain ⟨rest, hrest, rfl⟩ := value_in_append_operation hp
      rcases append_eq_append_cons hrest with ⟨later, hleft, rfl⟩ | ⟨earlier, rfl, hright⟩
      · obtain ⟨c, rfl, hc⟩ := ihl he.1 hleft
        exact ⟨.leftOf _ c _, rfl, hc.leftOf (fun _ _ h => .between hop hf h hr) he.2⟩
      · obtain ⟨c, rfl, hc⟩ := ihr he.2 hright
        exact ⟨.rightOf _ _ c, rfl, hc.rightOf (fun _ _ => .between hop hf hl) hl he.1⟩

namespace Yard

section

variable {W J : Type} {g : Grammar W J} {before after inner : List String} {word : String}
  {p q : Program W J}

theorem Step.of_value {y z : Yard W J} (hv : g.knows word = false) (hs : Step g y word z) :
    y.expecting = true ∧
      z = { y with expecting := false, emitted := .value word :: y.emitted } := by
  have hleading {op : Leading W} (hl : g.leading? word = some op) : False := by
    simp [Grammar.knows_of_leading? hl] at hv
  have htrailing {op : Trailing W J} (ht : g.trailing? word = some op) : False := by
    simp [Grammar.knows_of_trailing? ht] at hv
  cases hs with
  | value hy => exact ⟨hy, rfl⟩
  | leading _ hl => exact (hleading hl).elim
  | behind _ ht => exact (htrailing ht).elim
  | between _ ht => exact (htrailing ht).elim
  | close _ ht => exact (htrailing ht).elim

theorem parse_replaced (ho : g.Opens openGroup) (hc : g.Closes closeGroup)
    (hv : g.knows word = false) (hp : (parse g (before ++ word :: after)).1 = .ok (some p))
    (hq : (parse g inner).1 = .ok (some q)) :
    ∃ first last, p = first ++ .value word :: last ∧
      Program.values first = before.filter (!g.knows ·) ∧
      (parse g (before ++ enclosed inner ++ after)).1 = .ok (some (first ++ q ++ last)) := by
  obtain ⟨z, hr, he, hready, rfl⟩ := parse_eq_some_iff_ready.mp hp
  obtain ⟨y, hbefore, hr⟩ := reads_append.mp hr
  obtain ⟨mid, hs, hafter⟩ := reads_cons.mp hr
  obtain ⟨hy, rfl⟩ := hs.of_value hv
  obtain ⟨added, hz, hlog⟩ := hafter.emits
  have hgroup := reads_enclosed ho hc hq hy
  have hall := reads_append.mpr ⟨_, reads_append.mpr ⟨_, hbefore, hgroup⟩, hlog _⟩
  refine ⟨y.emitted.reverse, added.reverse ++ z.pending.map .operation, by simp [hz],
    hbefore.values, ?_⟩
  exact parse_eq_some_iff_ready.mpr ⟨_, hall, he, hready, by simp⟩

end

theorem exists_postfix_of_parse {g : Grammar} {words : List String} {p : Program}
    (h : (parse g words).1 = .ok (some p)) :
    ∃ e, Postfix g e p ∧ e.programFree = true := by
  refine Program.Complete.exists_postfix ⟨?_, parse_leaves h⟩
  intro op hop
  exact ⟨parse_means h _ hop, parse_ungrouped h op hop⟩

end Yard

theorem groups_replace_values (before after inner : List String) (word : String) :
    (∀ (W J : Type) (g : Grammar W J), g.Opens openGroup → g.Closes closeGroup →
      g.knows word = false → ∀ p q,
      (Yard.parse g (before ++ word :: after)).1 = .ok (some p) →
      (Yard.parse g inner).1 = .ok (some q) →
      (∃ first last, p = first ++ .value word :: last ∧
        Program.values first = before.filter (!g.knows ·) ∧
        (Yard.parse g (before ++ enclosed inner ++ after)).1 = .ok (some (first ++ q ++ last))) ∧
      (Yard.parse g (enclosed inner)).1 = .ok (some q)) ∧
    (calculator.knows word = false → ∀ p q,
      (Yard.parse calculator (before ++ word :: after)).1 = .ok (some p) →
      (Yard.parse calculator inner).1 = .ok (some q) →
      ∃ (c : Context) (e : Expression),
        c.valuesBefore = before.filter (!calculator.knows ·) ∧
        (c.fill e).programFree = true ∧
        (c.fill (.value word)).toProgram calculator = .ok p ∧ e.toProgram calculator = .ok q ∧
        Climbing.Finds calculator (before ++ word :: after) (c.fill (.value word)) ∧
        Climbing.Finds calculator inner e ∧ Climbing.Finds calculator (enclosed inner) e ∧
        Climbing.Finds calculator (before ++ enclosed inner ++ after) (c.fill e)) := by
  refine ⟨fun W J g ho hc hv p q hp hq =>
    ⟨Yard.parse_replaced ho hc hv hp hq, Yard.parse_enclosed ho hc hq⟩, fun hv p q hp hq => ?_⟩
  obtain ⟨first, last, rfl, hvalues, hreplaced⟩ :=
    Yard.parse_replaced opens_calculator closes_calculator hv hp hq
  have henclosed := Yard.parse_enclosed opens_calculator closes_calculator hq
  obtain ⟨_, hwhole, hfree⟩ := Yard.exists_postfix_of_parse hp
  obtain ⟨c, rfl, hlocates⟩ := hwhole.locates hfree rfl
  obtain ⟨e, he, hefree⟩ := Yard.exists_postfix_of_parse hq
  obtain ⟨hfilled, hcfree⟩ := hlocates.fills e q he hefree
  exact ⟨c, e, hlocates.values.trans hvalues, hcfree, hwhole.toProgram, he.toProgram,
    climbing_of_yard_some aligned_calculator hwhole hfree hp,
    climbing_of_yard_some aligned_calculator he hefree hq,
    climbing_of_yard_some aligned_calculator he hefree henclosed,
    climbing_of_yard_some aligned_calculator hfilled hcfree hreplaced⟩

theorem groups_replace_values_factorial :
    ∃ p q : Program, calculator.knows "x" = false ∧
      (Yard.parse calculator ["2", "^", "x", "!"]).1 = .ok (some p) ∧
      (Yard.parse calculator ["1", "+", "3"]).1 = .ok (some q) ∧
      (∃ first last, p = first ++ .value "x" :: last ∧ Program.values first = ["2"] ∧
        (Yard.parse calculator ["2", "^", "(", "1", "+", "3", ")", "!"]).1 =
          .ok (some (first ++ q ++ last))) ∧
      ∃ (c : Context) (e : Expression), c.valuesBefore = ["2"] ∧
        (c.fill (.value "x")).toProgram calculator = .ok p ∧ e.toProgram calculator = .ok q ∧
        (Climbing.parse calculator { words := ["2", "^", "(", "1", "+", "3", ")", "!"] }).1 =
          .ok (some (c.fill e)) := by
  have hx : calculator.knows "x" = false := by decide
  obtain ⟨p, hp⟩ : ∃ p, (Yard.parse calculator (["2", "^"] ++ "x" :: ["!"])).1 = .ok (some p) :=
    ⟨_, rfl⟩
  obtain ⟨q, hq⟩ : ∃ q, (Yard.parse calculator ["1", "+", "3"]).1 = .ok (some q) := ⟨_, rfl⟩
  obtain ⟨hyard, hclimbing⟩ := groups_replace_values ["2", "^"] ["!"] ["1", "+", "3"] "x"
  obtain ⟨hreplaced, -⟩ := hyard _ _ _ opens_calculator closes_calculator hx p q hp hq
  obtain ⟨c, e, hvalues, -, hwhole, hpart, -, -, -, hfound | hdeep⟩ := hclimbing hx p q hp hq
  · exact ⟨p, q, hx, hp, hq, hreplaced, c, e, hvalues, hwhole, hpart, hfound⟩
  · cases hdeep

end InfixArithmetic

import InfixArithmetic.Proofs.Assembly
import InfixArithmetic.Proofs.Derivations
import InfixArithmetic.Proofs.ModeAgreement

/-!
Precedence without a parser.  An expression is layered when no operation along an edge of an operand
could take that operand away from the operation it belongs to.  Climbing reads the one layered
expression that is spelled by the words, if there is one.
-/

namespace InfixArithmetic

open Climbing (nestingLimit)
open Grammar (calculator)

namespace Grammar

variable {W J : Type}

def binary? (g : Grammar W J) (f : BinaryOperator) : Option (Operation W J) :=
  (g.trailing? f.symbol).map .trailing

def unary? (g : Grammar W J) (f : UnaryOperator) : Option (Operation W J) :=
  if f.leads then (g.leading? f.symbol).map .leading else (g.trailing? f.symbol).map .trailing

variable {g : Grammar W J}

theorem binary?_of_trailing? {f : BinaryOperator} {op : Trailing W J}
    (h : g.trailing? f.symbol = some op) : g.binary? f = some (.trailing op) := by
  simp [binary?, h]

theorem unary?_of_leading? {f : UnaryOperator} {op : Leading W} (hf : f.leads = true)
    (h : g.leading? f.symbol = some op) : g.unary? f = some (.leading op) := by
  simp [unary?, hf, h]

theorem unary?_of_trailing? {f : UnaryOperator} {op : Trailing W J} (hf : f.leads = false)
    (h : g.trailing? f.symbol = some op) : g.unary? f = some (.trailing op) := by
  simp [unary?, hf, h]

end Grammar

namespace Expression

def spelling : Expression → List String
  | .value word => [word]
  | .literal x => [Decimal.text x]
  | .binary f left right => left.spelling ++ f.symbol :: right.spelling
  | .unary f operand =>
      if f.leads then f.symbol :: operand.spelling else operand.spelling ++ [f.symbol]
  | .program p => p.map Instruction.text

/-- Operators over values whose words name no operation. -/
def Plain (g : Grammar) : Expression → Prop
  | .value word => g.knows word = false
  | .literal _ | .program _ => False
  | .binary _ left right => left.Plain g ∧ right.Plain g
  | .unary _ operand => operand.Plain g

/-- The operations met from the root through left operands, up to one that stands first. -/
def leftEdge (g : Grammar) : Expression → List Operation
  | .value _ | .literal _ | .program _ => []
  | .binary f left _ => (g.binary? f).toList ++ left.leftEdge g
  | .unary f operand => if f.leads then [] else (g.unary? f).toList ++ operand.leftEdge g

/-- The operations met through right operands, up to one that stands last; the root comes last. -/
def rightEdge (g : Grammar) : Expression → List Operation
  | .value _ | .literal _ | .program _ => []
  | .binary f _ right => right.rightEdge g ++ (g.binary? f).toList
  | .unary f operand => if f.leads then operand.rightEdge g ++ (g.unary? f).toList else []

def Layered (g : Grammar) : Expression → Prop
  | .value _ | .literal _ | .program _ => True
  | .binary f left right =>
      left.Layered g ∧ right.Layered g ∧ ∀ op, g.binary? f = some op →
        (∀ p ∈ left.rightEdge g, op.priority ≤ p.floor) ∧
        ∀ q ∈ right.leftEdge g, op.floor < q.priority
  | .unary f operand =>
      operand.Layered g ∧ ∀ op, g.unary? f = some op →
        if f.leads then ∀ q ∈ operand.leftEdge g, op.floor < q.priority
        else ∀ p ∈ operand.rightEdge g, op.priority ≤ p.floor

theorem programFree_of_plain {g : Grammar} {e : Expression} (h : e.Plain g) :
    e.programFree = true := by
  induction e with
  | value word => rfl
  | literal x => rfl
  | program p => cases h
  | unary f operand ih => exact ih h
  | binary f left right ihl ihr => simp [programFree, ihl h.1, ihr h.2]

end Expression

structure Reading (g : Grammar) (words : List String) (e : Expression) : Prop where
  plain : e.Plain g
  spelling : e.spelling = words
  layered : e.Layered g

/-- What a level of this floor reads, and what comes behind it. -/
structure Spans (g : Grammar) (floor : Priority) (words : List String) (e : Expression)
    (rest : List String) : Prop where
  plain : e.Plain g
  spelling : words = e.spelling ++ rest
  layered : e.Layered g
  above : ∀ q ∈ e.leftEdge g, floor < q.priority
  covers : Covers g (e.rightEdge g) rest

namespace Spans

variable {g : Grammar} {floor : Priority} {word : String} {words rest after : List String}
  {e left right : Expression}

theorem value (h : g.readOperand word = .ok none) :
    Spans g floor (word :: rest) (.value word) rest :=
  ⟨Grammar.readOperand_eq_none.mp h, rfl, trivial, by simp [Expression.leftEdge],
    by simpa [Expression.rightEdge] using covers_nil rest⟩

theorem leading {f : UnaryOperator} {op : Leading} (hf : f.leads = true)
    (hl : g.leading? f.symbol = some op) (hg : op.opensGroup = false)
    (h : Spans g op.priority rest e after) (hs : Halts g op.priority after) :
    Spans g floor (f.symbol :: rest) (.unary f e) after := by
  have hu := Grammar.unary?_of_leading? hf hl
  have hfl := Operation.floor_leading hg
  refine ⟨h.plain, ?_, ⟨h.layered, ?_⟩, ?_, ?_⟩
  · simp [Expression.spelling, hf, h.spelling]
  · intro found hfound
    obtain rfl := Option.some.inj (hu.symm.trans hfound)
    rw [if_pos hf, hfl]
    exact h.above
  · simp [Expression.leftEdge, hf]
  · simp only [Expression.rightEdge, hf, hu]
    exact covers_append h.covers (by rwa [hfl])

theorem behind {f : UnaryOperator} {op : Trailing} (hf : f.leads = false)
    (ht : g.trailing? f.symbol = some op) (hc : op.closesGroup = false) (hlt : floor < op.priority)
    (h : Spans g floor words e (f.symbol :: rest)) : Spans g floor words (.unary f e) rest := by
  have hu := Grammar.unary?_of_trailing? hf ht
  have hr := Grammar.readOperation_of_trailing? ht
  refine ⟨h.plain, ?_, ⟨h.layered, ?_⟩, ?_, ?_⟩
  · simp [Expression.spelling, hf, h.spelling]
  · intro found hfound
    obtain rfl := Option.some.inj (hu.symm.trans hfound)
    simp only [hf]
    exact h.covers f.symbol rest op rfl hr hc
  · intro q hq
    simp only [Expression.leftEdge, hf, hu] at hq
    rcases List.mem_cons.mp hq with rfl | hq
    · exact hlt
    · exact h.above q hq
  · simpa [Expression.rightEdge, hf] using covers_nil rest

theorem between {f : BinaryOperator} {op : Trailing} {a : Associativity}
    (ht : g.trailing? f.symbol = some op) (hf : op.form = .between a f)
    (hlt : floor < op.priority) (hl : Spans g floor words left (f.symbol :: rest))
    (hr : Spans g (Climbing.floorBehind op.priority a) rest right after)
    (hs : Halts g (Climbing.floorBehind op.priority a) after) :
    Spans g floor words (.binary f left right) after := by
  have hb := Grammar.binary?_of_trailing? ht
  have hfl := Operation.floor_between hf
  have hread := Grammar.readOperation_of_trailing? ht
  refine ⟨⟨hl.plain, hr.plain⟩, ?_, ⟨hl.layered, hr.layered, ?_⟩, ?_, ?_⟩
  · simp [Expression.spelling, hl.spelling, hr.spelling]
  · intro found hfound
    obtain rfl := Option.some.inj (hb.symm.trans hfound)
    rw [hfl]
    have hc := Trailing.closesGroup_between hf
    exact ⟨hl.covers f.symbol rest op rfl hread hc, hr.above⟩
  · intro q hq
    simp only [Expression.leftEdge, hb] at hq
    rcases List.mem_cons.mp hq with rfl | hq
    · exact hlt
    · exact hl.above q hq
  · simp only [Expression.rightEdge, hb]
    exact covers_append hr.covers (by rwa [hfl])

end Spans

theorem Climbs.spans {floor : Priority} {words rest : List String} {e : Expression}
    (h : Climbs calculator floor words e rest) (ho : openGroup ∉ words)
    (hc : closeGroup ∉ words) : Spans calculator floor words e rest := by
  induction h with
  | value h => exact .value h
  | leading h hg _ hs ih =>
      obtain ⟨hop, hname⟩ := Grammar.readOperand_eq_some h
      obtain ⟨f, hw, hf, hl⟩ := mem_leading_calculator hop hg
      have hsym := (Grammar.leading?_eq_some hl).2.symm.trans hname
      have hi := ih (List.not_mem_of_not_mem_cons ho) (List.not_mem_of_not_mem_cons hc)
      rw [hw, ← hsym]
      exact hi.leading hf hl hg hs
  | group h hg =>
      have hname := (Grammar.readOperand_eq_some h).2
      have hword : openGroup = _ := (of_decide_eq_true hg).symm.trans hname
      exact absurd (hword ▸ List.mem_cons_self) ho
  | behind _ h hform hlt ih =>
      have hi := ih ho hc
      obtain ⟨hop, hname⟩ := Grammar.readOperation_eq_ok h
      rcases mem_trailing_calculator hop with hcl | ⟨f, hw, hcl, hf, ht⟩ | ⟨a, f, hw, _⟩
      · -- a closing is one of the words, as what comes behind the operand is
        have hword := hname.symm.trans (Trailing.closesGroup_iff.mp hcl).2
        rw [hi.spelling, hword] at hc
        simp at hc
      · obtain rfl := Form.behind.inj (hform.symm.trans hw)
        have hsym := (Grammar.trailing?_eq_some ht).2.symm.trans hname
        subst hsym
        exact hi.behind hf ht hcl hlt
      · cases hform.symm.trans hw
  | between _ h hform hlt _ hs ihl ihr =>
      have hl := ihl ho hc
      obtain ⟨hop, hname⟩ := Grammar.readOperation_eq_ok h
      rcases mem_trailing_calculator hop with hcl | ⟨f, hw, _⟩ | ⟨a, f, hw, ht⟩
      · simp [Trailing.closesGroup, hform] at hcl
      · cases hform.symm.trans hw
      · obtain ⟨rfl, rfl⟩ := Form.between.inj (hform.symm.trans hw)
        have hsym := (Grammar.trailing?_eq_some ht).2.symm.trans hname
        subst hsym
        rw [hl.spelling] at ho hc
        simp only [List.mem_append, List.mem_cons, not_or] at ho hc
        exact hl.between ht hform hlt (ihr ho.2.2 hc.2.2) hs

namespace Yard

variable {g : Grammar} {y z : Yard} {e left : Expression} {word : String}

theorem readAll_step (h : y.read g word = .ok z) (rest : List String) :
    readAll g y (word :: rest) = readAll g z rest := by
  simp [readAll, h]

/-- A yard has read the whole expression, and keeps the operations of its right edge pending. -/
structure Spells (g : Grammar) (y : Yard) (e : Expression) (z : Yard) : Prop where
  holds : Holds g y e (e.rightEdge g) z
  reads : ∀ rest, readAll g y (e.spelling ++ rest) = readAll g z rest

theorem spells_value (hy : y.expecting = true) (h : g.knows word = false) :
    ∃ z, Spells g y (.value word) z := by
  obtain ⟨z, hread, hheld⟩ := read_value hy (Grammar.readOperand_eq_none.mpr h)
  exact ⟨z, hheld, readAll_step hread⟩

namespace Spells

theorem leading {f : UnaryOperator} {op : Leading} (hy : y.expecting = true)
    (hf : f.leads = true) (hl : g.leading? f.symbol = some op) (hg : op.opensGroup = false)
    (hw : op.wrap = .operator f) (h : Spells g (y.push (.leading op)) e z) :
    Spells g y (.unary f e) z := by
  have hu := Grammar.unary?_of_leading? hf hl
  have hread := read_leading hy (Grammar.readOperand_of_leading? hl)
  have hheld := h.holds.leading (Grammar.leading?_eq_some hl).1 hg
  constructor
  · simpa [Expression.rightEdge, hf, hu, hw, Wrap.build] using hheld
  · intro rest
    simp only [Expression.spelling, hf]
    exact (readAll_step hread _).trans (h.reads rest)

theorem behind (ha : g.Aligned) (hy : y.Waits g) {f : UnaryOperator} {op : Trailing}
    (hf : f.leads = false) (ht : g.trailing? f.symbol = some op) (hc : op.closesGroup = false)
    (hform : op.form = .behind (.operator f)) (hle : ∀ p ∈ e.rightEdge g, op.priority ≤ p.floor)
    (hlt : y.floor < op.priority) (h : Spells g y e z) : ∃ z', Spells g y (.unary f e) z' := by
  have hr := Grammar.readOperation_of_trailing? ht
  obtain ⟨z', hread, hheld⟩ := h.holds.read_behind ha hy hr hc hform hle hlt
  refine ⟨z', ?_, ?_⟩
  · simpa [Expression.rightEdge, hf, Wrap.build] using hheld
  · intro rest
    simp only [Expression.spelling, hf]
    rw [if_neg (by simp), List.append_assoc, h.reads]
    exact readAll_step hread rest

theorem between (ha : g.Aligned) (hy : y.Waits g) {f : BinaryOperator} {op : Trailing}
    {a : Associativity} (ht : g.trailing? f.symbol = some op) (hform : op.form = .between a f)
    (hle : ∀ p ∈ left.rightEdge g, op.priority ≤ p.floor) (hlt : y.floor < op.priority)
    (h : Spells g y left z) :
    ∃ z', z'.expecting = true ∧ z'.Waits g ∧ z'.floor = (Operation.trailing op).floor ∧
      ∀ right z'', Spells g z' right z'' → Spells g y (.binary f left right) z'' := by
  have hb := Grammar.binary?_of_trailing? ht
  have hr := Grammar.readOperation_of_trailing? ht
  have hop : g.Pends (.trailing op) := ⟨(Grammar.trailing?_eq_some ht).1, a, f, hform⟩
  obtain ⟨z', hread, hexp, hpend, hright⟩ := h.holds.read_between ha hy hr hform hle hlt
  refine ⟨z', hexp, waits_of_pending hpend hy hop, floor_of_pending hpend, ?_⟩
  intro right z'' hs
  constructor
  · simpa [Expression.rightEdge, hb] using hright _ _ _ hs.holds
  · intro rest
    simp only [Expression.spelling]
    rw [List.append_assoc, h.reads, List.cons_append]
    exact (readAll_step hread _).trans (hs.reads rest)

end Spells

theorem spells_of_layered (hp : e.Plain calculator) (hl : e.Layered calculator)
    (hy : y.expecting = true) (hw : y.Waits calculator)
    (ha : ∀ q ∈ e.leftEdge calculator, y.floor < q.priority) :
    ∃ z, Spells calculator y e z := by
  induction e generalizing y with
  | value word => exact spells_value hy hp
  | literal x => cases hp
  | program p => cases hp
  | unary f operand ih =>
      cases hf : f.leads with
      | true =>
          obtain ⟨op, ho, hg, hwrap⟩ := calculator_leads hf
          have hu := Grammar.unary?_of_leading? hf ho
          have hop := (Grammar.leading?_eq_some ho).1
          have hbelow := hl.2 _ hu
          rw [if_pos hf] at hbelow
          obtain ⟨z, hz⟩ := ih hp hl.1 (y := y.push (.leading op)) rfl
            (waits_of_pending rfl hw hop) hbelow
          exact ⟨z, hz.leading hy hf ho hg hwrap⟩
      | false =>
          obtain ⟨op, ht, hc, hform⟩ := calculator_trails hf
          have hu := Grammar.unary?_of_trailing? hf ht
          have hcovers := hl.2 _ hu
          simp only [hf] at hcovers
          simp only [Expression.leftEdge, hf, hu] at ha
          have hlt : y.floor < op.priority := ha (.trailing op) List.mem_cons_self
          obtain ⟨z, hz⟩ := ih hp hl.1 hy hw (fun q hq => ha q (List.mem_cons_of_mem _ hq))
          exact hz.behind aligned_calculator hw hf ht hc hform hcovers hlt
  | binary f left right ihl ihr =>
      obtain ⟨op, a, ht, hform⟩ := calculator_binary f
      have hb := Grammar.binary?_of_trailing? ht
      obtain ⟨hcovers, hbelow⟩ := hl.2.2 _ hb
      simp only [Expression.leftEdge, hb] at ha
      have hlt : y.floor < op.priority := ha (.trailing op) List.mem_cons_self
      obtain ⟨z, hz⟩ := ihl hp.1 hl.1 hy hw (fun q hq => ha q (List.mem_cons_of_mem _ hq))
      obtain ⟨z', hexp, hwait, hfloor, hright⟩ :=
        hz.between aligned_calculator hw ht hform hcovers hlt
      -- the right operand is read above the operation itself, which now waits on top
      rw [← hfloor] at hbelow
      obtain ⟨z'', hz''⟩ := ihr hp.2 hl.2.1 hexp hwait hbelow
      exact ⟨z'', hright right z'' hz''⟩

end Yard

theorem Expression.leftEdge_pos (e : Expression) : ∀ q ∈ e.leftEdge calculator, 0 < q.priority := by
  induction e with
  | value word => simp [leftEdge]
  | literal x => simp [leftEdge]
  | program p => simp [leftEdge]
  | unary f operand ih =>
      cases hf : f.leads with
      | true => simp [leftEdge, hf]
      | false =>
          obtain ⟨op, ht, hc, _⟩ := calculator_trails hf
          have hpos := aligned_calculator.above op (Grammar.trailing?_eq_some ht).1 hc
          simpa [leftEdge, hf, Grammar.unary?_of_trailing? hf ht, Operation.priority] using
            And.intro hpos ih
  | binary f left right ihl =>
      obtain ⟨op, a, ht, hform⟩ := calculator_binary f
      have hpos := aligned_calculator.above op (Grammar.trailing?_eq_some ht).1
        (Trailing.closesGroup_between hform)
      simpa [leftEdge, Grammar.binary?_of_trailing? ht, Operation.priority] using
        And.intro hpos ihl

/-- What climbing comes to, unless the nesting is too deep for it. -/
def Climbing.Finds (g : Grammar) (words : List String) (e : Expression) : Prop :=
  (Climbing.parse g { words }).1 = .ok (some e) ∨
    (Climbing.parse g { words }).1 = .error (.nestingTooDeep nestingLimit)

/-- The yard has no limit on nesting, so its program fixes what climbing can come to. -/
theorem climbing_of_yard_some {g : Grammar} (hg : g.Aligned) {words : List String} {e : Expression}
    {p : Program} (hp : Postfix g e p) (hfree : e.programFree = true)
    (hy : (Yard.parse g words).1 = .ok (some p)) : Climbing.Finds g words e := by
  unfold Climbing.Finds
  cases hc : (Climbing.parse g { words }).1 with
  | error cause =>
      rcases yard_of_climbing_error hg hc with rfl | hn
      · exact Or.inr rfl
      · cases hy.symm.trans hn
  | ok found =>
      left
      cases found with
      | none => cases hy.symm.trans (yard_of_climbing_none hg hc)
      | some other =>
          obtain ⟨hfree', p', hp', hy'⟩ := yard_of_climbing_some hg hc
          obtain rfl := Option.some.inj (Except.ok.inj (hy.symm.trans hy'))
          rw [hp.unique hp' hfree hfree']

namespace Reading

variable {words : List String} {e e' : Expression}

theorem yard (h : Reading calculator words e) :
    ∃ p, Postfix calculator e p ∧ (Yard.parse calculator words).1 = .ok (some p) := by
  obtain ⟨z, hz⟩ := Yard.spells_of_layered h.plain h.layered (y := {}) rfl (by simp [Yard.Waits])
    e.leftEdge_pos
  obtain ⟨p, hp, hfin⟩ := hz.holds.finish rfl rfl
  have hread := hz.reads []
  rw [List.append_nil, h.spelling] at hread
  refine ⟨p, hp, ?_⟩
  rw [Yard.parse_fst, hread]
  simp [Yard.readAll, Except.bind, Except.map, hfin,
    hp.ne_nil (Expression.programFree_of_plain h.plain)]

theorem unique (h : Reading calculator words e) (h' : Reading calculator words e') : e = e' := by
  obtain ⟨p, hp, hy⟩ := h.yard
  obtain ⟨p', hp', hy'⟩ := h'.yard
  obtain rfl := Option.some.inj (Except.ok.inj (hy.symm.trans hy'))
  exact hp.unique hp' (Expression.programFree_of_plain h.plain)
    (Expression.programFree_of_plain h'.plain)

theorem climbing (h : Reading calculator words e) :
    (Climbing.parse calculator { words }).1 = .ok (some e) ∨
      (Climbing.parse calculator { words }).1 = .error (.nestingTooDeep nestingLimit) := by
  obtain ⟨p, hp, hy⟩ := h.yard
  exact climbing_of_yard_some aligned_calculator hp (Expression.programFree_of_plain h.plain) hy

theorem of_climbing (ho : openGroup ∉ words) (hc : closeGroup ∉ words)
    (h : (Climbing.parse calculator { words }).1 = .ok (some e)) : Reading calculator words e := by
  have hs := (Climbing.climbs_of_parse h).spans ho hc
  exact ⟨hs.plain, by simpa using hs.spelling.symm, hs.layered⟩

end Reading

theorem climbing_reads_by_precedence (words : List String) (ho : openGroup ∉ words)
    (hc : closeGroup ∉ words) :
    (∀ e, (Climbing.parse calculator { words }).1 = .ok (some e) → Reading calculator words e) ∧
    (∀ e e', Reading calculator words e → Reading calculator words e' → e = e') ∧
    ∀ e, Reading calculator words e →
      (Climbing.parse calculator { words }).1 = .ok (some e) ∨
        (Climbing.parse calculator { words }).1 = .error (.nestingTooDeep nestingLimit) := by
  refine ⟨?_, ?_, ?_⟩
  · intro e h
    exact .of_climbing ho hc h
  · intro e e' h h'
    exact h.unique h'
  · intro e h
    exact h.climbing

theorem climbing_reads_by_precedence_sign :
    openGroup ∉ ["2", "^", "-", "1", "*", "3"] ∧ closeGroup ∉ ["2", "^", "-", "1", "*", "3"] ∧
      ∃ e, e = .binary .exponentiate (.value "2")
          (.unary .negate (.binary .multiply (.value "1") (.value "3"))) ∧
        Reading calculator ["2", "^", "-", "1", "*", "3"] e ∧
        ∀ e', Reading calculator ["2", "^", "-", "1", "*", "3"] e' → e' = e := by
  obtain ⟨hread, hunique, _⟩ :=
    climbing_reads_by_precedence ["2", "^", "-", "1", "*", "3"] (by decide) (by decide)
  refine ⟨by decide, by decide, _, rfl, hread _ rfl, ?_⟩
  intro e' h
  exact hunique e' _ h (hread _ rfl)

end InfixArithmetic

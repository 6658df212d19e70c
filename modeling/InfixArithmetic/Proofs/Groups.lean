import InfixArithmetic.Proofs.Acceptance
import InfixArithmetic.Proofs.Precedence

/-!
Groups around what is accepted.  Above the start of a group the yard reads as it does on its own,
for no operation beneath yields, and the end of the group emits all that the words inside still
hold.  So a group stands for one operand, and every expression can be written with its operands in
groups.
-/

namespace InfixArithmetic

open Grammar (calculator)

def enclosed (words : List String) : List String :=
  openGroup :: words ++ [closeGroup]

namespace Yard

variable {W J : Type} {g : Grammar W J} {y z : Yard W J} {word : String} {words : List String}
  {p : Program W J}
  {below : List (Operation W J)}

theorem head?_append_opened {kept : List (Operation W J)} {op : Trailing W J}
    (hk : ∀ p, kept.head? = some p → p.yieldsTo op = false)
    (hb : ∀ p, below.head? = some p → p.opensGroup = true) :
    ∀ p, (kept ++ below).head? = some p → p.yieldsTo op = false := by
  intro p hp
  cases kept with
  | nil => exact Operation.yieldsTo_of_opensGroup (hb p hp) op
  | cons q kept => exact hk p hp

theorem Step.above (hs : Step g y word z)
    (hb : ∀ p, below.head? = some p → p.opensGroup = true) :
    Step g { y with pending := y.pending ++ below } word
      { z with pending := z.pending ++ below } := by
  cases hs with
  | value hy hk => exact .value hy hk
  | leading hy hl => exact .leading hy hl
  | behind hy ht hf hc hp ho hk =>
      exact .behind hy ht hf hc (by simp [hp]) ho (head?_append_opened hk hb)
  | between hy ht hf hp ho hk =>
      exact .between hy ht hf (by simp [hp]) ho (head?_append_opened hk hb)
  | close hy ht hc hp hi hg => exact .close hy ht hc (by simp [hp]) hi hg

theorem Reads.above (h : Reads g y words z)
    (hb : ∀ p, below.head? = some p → p.opensGroup = true) :
    Reads g { y with pending := y.pending ++ below } words
      { z with pending := z.pending ++ below } := by
  induction words generalizing y with
  | nil =>
      obtain rfl := reads_nil.mp h
      exact reads_nil.mpr rfl
  | cons word rest ih =>
      obtain ⟨mid, hs, hr⟩ := reads_cons.mp h
      exact reads_cons.mpr ⟨_, hs.above hb, ih hr⟩

/-- What has been emitted is added to, but never looked at. -/
theorem Step.emits (hs : Step g y word z) :
    ∃ added, z.emitted = added ++ y.emitted ∧
      ∀ before, Step g { y with emitted := before } word { z with emitted := added ++ before } := by
  cases hs with
  | value hy hk => exact ⟨[.value word], rfl, fun _ => .value hy hk⟩
  | leading hy hl => exact ⟨[], rfl, fun _ => .leading hy hl⟩
  | @behind op wrap ops kept hy ht hf hc hp ho hk =>
      exact ⟨.operation (.trailing op) :: ops.reverse.map .operation, rfl,
        fun _ => .behind hy ht hf hc hp ho hk⟩
  | @between op a join ops kept hy ht hf hp ho hk =>
      exact ⟨ops.reverse.map .operation, rfl, fun _ => .between hy ht hf hp ho hk⟩
  | @close op group inner outer hy ht hc hp hi hg =>
      exact ⟨inner.reverse.map .operation, rfl, fun _ => .close hy ht hc hp hi hg⟩

theorem Reads.emits (h : Reads g y words z) :
    ∃ added, z.emitted = added ++ y.emitted ∧
      ∀ before, Reads g { y with emitted := before } words
        { z with emitted := added ++ before } := by
  induction words generalizing y with
  | nil =>
      obtain rfl := reads_nil.mp h
      exact ⟨[], rfl, fun _ => reads_nil.mpr rfl⟩
  | cons word rest ih =>
      obtain ⟨mid, hs, hr⟩ := reads_cons.mp h
      obtain ⟨first, hmid, hstep⟩ := hs.emits
      obtain ⟨later, hz, hrest⟩ := ih hr
      refine ⟨later ++ first, by rw [hz, hmid, List.append_assoc], fun before => ?_⟩
      rw [List.append_assoc]
      exact reads_cons.mpr ⟨_, hstep before, hrest (first ++ before)⟩

theorem reads_enclosed (ho : g.Opens openGroup) (hc : g.Closes closeGroup)
    (h : (parse g words).1 = .ok (some p)) (hy : y.expecting = true) :
    Reads g y (enclosed words)
      { y with expecting := false, emitted := p.reverse ++ y.emitted } := by
  obtain ⟨z, hr, he, hinner, rfl⟩ := parse_eq_some_iff_ready.mp h
  obtain ⟨opening, hl, hopens⟩ := ho
  obtain ⟨closing, ht, hcloses⟩ := hc
  have hbelow : ∀ p, (Operation.leading opening :: y.pending).head? = some p →
      p.opensGroup = true := by
    rintro p ⟨⟩
    exact hopens
  -- The words inside find the group and all before it beneath them.
  obtain ⟨added, hz, hlog⟩ := (hr.above hbelow).emits
  obtain rfl : z.emitted = added := by simpa using hz
  have hinside := hlog y.emitted
  have hend := @Step.close W J g
    { z with
      pending := z.pending ++ .leading opening :: y.pending
      emitted := z.emitted ++ y.emitted }
    closeGroup closing (.leading opening) z.pending y.pending he ht hcloses rfl hinner hopens
  have hgroup := reads_cons.mpr ⟨_, Step.leading hy hl,
    reads_append.mpr ⟨_, hinside, reads_singleton.mpr hend⟩⟩
  simpa [enclosed, he] using hgroup

theorem parse_enclosed (ho : g.Opens openGroup) (hc : g.Closes closeGroup)
    (h : (parse g words).1 = .ok (some p)) : (parse g (enclosed words)).1 = .ok (some p) := by
  have hr := reads_enclosed ho hc h (y := {}) rfl
  exact parse_eq_some_iff_ready.mpr ⟨_, hr, rfl, by simp, by simp⟩

theorem parse_leading (ho : g.Opens openGroup) (hc : g.Closes closeGroup) {op : Leading W}
    (hl : g.leading? word = some op) (hg : op.opensGroup = false)
    (h : (parse g words).1 = .ok (some p)) :
    (parse g (word :: enclosed words)).1 = .ok (some (p ++ [.operation (.leading op)])) := by
  have hop := @Step.leading W J g {} word op rfl hl
  have hr := reads_enclosed ho hc h (y := { pending := [.leading op] }) rfl
  refine parse_eq_some_iff_ready.mpr ⟨_, reads_cons.mpr ⟨_, hop, hr⟩, rfl, ?_, by simp⟩
  simpa [Operation.opensGroup] using hg

theorem parse_behind (ho : g.Opens openGroup) (hc : g.Closes closeGroup) {op : Trailing W J}
    {wrap : W} (ht : g.trailing? word = some op) (hf : op.form = .behind wrap)
    (hn : op.closesGroup = false) (h : (parse g words).1 = .ok (some p)) :
    (parse g (enclosed words ++ [word])).1 = .ok (some (p ++ [.operation (.trailing op)])) := by
  have hr := reads_enclosed ho hc h (y := {}) rfl
  have hop := @Step.behind W J g { expecting := false, emitted := p.reverse ++ [] } word op wrap
    [] []
    rfl ht hf hn rfl nofun nofun
  have hall := reads_append.mpr ⟨_, hr, reads_singleton.mpr hop⟩
  exact parse_eq_some_iff_ready.mpr ⟨_, hall, rfl, nofun, by simp⟩

theorem parse_between (ho : g.Opens openGroup) (hc : g.Closes closeGroup) {op : Trailing W J}
    {a : Associativity} {join : J} (ht : g.trailing? word = some op)
    (hf : op.form = .between a join) {us vs : List String} {q : Program W J}
    (hu : (parse g us).1 = .ok (some p)) (hv : (parse g vs).1 = .ok (some q)) :
    (parse g (enclosed us ++ word :: enclosed vs)).1 =
      .ok (some (p ++ q ++ [.operation (.trailing op)])) := by
  have hleft := reads_enclosed ho hc hu (y := {}) rfl
  have hop := @Step.between W J g { expecting := false, emitted := p.reverse ++ [] } word op a
    join [] []
    rfl ht hf rfl nofun nofun
  have hright := reads_enclosed ho hc hv
    (y := { pending := [.trailing op], emitted := p.reverse ++ [] }) rfl
  have hall := reads_append.mpr ⟨_, hleft, reads_cons.mpr ⟨_, hop, hright⟩⟩
  refine parse_eq_some_iff_ready.mpr ⟨_, hall, rfl, ?_, by simp⟩
  simp [Operation.opensGroup]

end Yard

def Expression.grouped : Expression → List String
  | .value word => [word]
  | .literal x => [Decimal.text x]
  | .binary f left right => enclosed left.grouped ++ f.symbol :: enclosed right.grouped
  | .unary f operand =>
      if f.leads then f.symbol :: enclosed operand.grouped
      else enclosed operand.grouped ++ [f.symbol]
  | .program p => p.map Instruction.text

theorem opens_calculator : calculator.Opens openGroup :=
  ⟨_, rfl, rfl⟩

theorem closes_calculator : calculator.Closes closeGroup :=
  ⟨_, rfl, rfl⟩

theorem Expression.parse_grouped {e : Expression} (h : e.Plain calculator) :
    ∃ p, Postfix calculator e p ∧ (Yard.parse calculator e.grouped).1 = .ok (some p) := by
  induction e with
  | value word =>
      have hstep := @Yard.Step.value _ _ calculator {} word rfl h
      exact ⟨_, .value word, Yard.parse_eq_some_iff_ready.mpr
        ⟨_, Yard.reads_singleton.mpr hstep, rfl, nofun, rfl⟩⟩
  | literal x => cases h
  | program p => cases h
  | unary f operand ih =>
      obtain ⟨p, hp, hparse⟩ := ih h
      cases hf : f.leads with
      | true =>
          obtain ⟨op, hl, hg, hw⟩ := calculator_leads hf
          have hbuilt := Postfix.leading (Grammar.leading?_eq_some hl).1 hg hp
          rw [hw] at hbuilt
          have hread := Yard.parse_leading opens_calculator closes_calculator hl hg hparse
          exact ⟨_, hbuilt, by simpa [grouped, hf] using hread⟩
      | false =>
          obtain ⟨op, ht, hc, hform⟩ := calculator_trails hf
          have hbuilt := Postfix.behind (Grammar.trailing?_eq_some ht).1 hform hc hp
          have hread := Yard.parse_behind opens_calculator closes_calculator ht hform hc hparse
          exact ⟨_, hbuilt, by simpa [grouped, hf] using hread⟩
  | binary f left right ihl ihr =>
      obtain ⟨p, hp, hleft⟩ := ihl h.1
      obtain ⟨q, hq, hright⟩ := ihr h.2
      obtain ⟨op, a, ht, hform⟩ := calculator_binary f
      exact ⟨_, .between (Grammar.trailing?_eq_some ht).1 hform hp hq,
        Yard.parse_between opens_calculator closes_calculator ht hform hleft hright⟩

theorem grouped_spelling_is_read_back (e : Expression) (h : e.Plain calculator) :
    (∃ p, e.toProgram calculator = .ok p ∧
      (Yard.parse calculator e.grouped).1 = .ok (some p)) ∧
    Climbing.Finds calculator e.grouped e := by
  obtain ⟨p, hp, hparse⟩ := Expression.parse_grouped h
  have hfree := Expression.programFree_of_plain h
  exact ⟨⟨p, hp.toProgram, hparse⟩, climbing_of_yard_some aligned_calculator hp hfree hparse⟩

theorem grouped_spelling_is_read_back_power :
    ∃ e : Expression, e = .binary .exponentiate (.unary .square (.value "2"))
        (.unary .negate (.binary .add (.value "x") (.value "1"))) ∧
      e.Plain calculator ∧
      e.grouped = ["(", "(", "2", ")", "**", ")", "^",
        "(", "-", "(", "(", "x", ")", "+", "(", "1", ")", ")", ")"] ∧
      (∃ p, e.toProgram calculator = .ok p ∧
        (Yard.parse calculator e.grouped).1 = .ok (some p)) ∧
      (Climbing.parse calculator { words := e.grouped }).1 = .ok (some e) := by
  have hplain : (Expression.binary .exponentiate (.unary .square (.value "2"))
      (.unary .negate (.binary .add (.value "x") (.value "1")))).Plain calculator := by
    simp only [Expression.Plain]
    decide
  obtain ⟨hyard, hclimbing | hdeep⟩ := grouped_spelling_is_read_back _ hplain
  · exact ⟨_, rfl, hplain, rfl, hyard, hclimbing⟩
  · cases hdeep

end InfixArithmetic

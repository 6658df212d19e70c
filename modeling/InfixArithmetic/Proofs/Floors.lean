import InfixArithmetic.Parsing.Climbing
import InfixArithmetic.Parsing.Yard

/-!
Floors of pending operations.  An operation that waits for its right operand keeps a level of
climbing open at its floor.  Where no two kinds of operations tie, it yields to another one in the
yard exactly when that one does not climb above the floor.
-/

namespace InfixArithmetic

def Operation.floor : Operation → Priority
  | .leading op => if op.opensGroup then 0 else op.priority
  | .trailing op =>
      match op.form with
      | .behind _ => op.priority
      | .between a _ => Climbing.floorBehind op.priority a

theorem Operation.floor_group {op : Leading} (hg : op.opensGroup = true) :
    (Operation.leading op).floor = 0 := by
  simp [floor, hg]

theorem Operation.floor_leading {op : Leading} (hg : op.opensGroup = false) :
    (Operation.leading op).floor = op.priority := by
  simp [floor, hg]

theorem Operation.floor_between {op : Trailing} {a : Associativity} {f : BinaryOperator}
    (hf : op.form = .between a f) :
    (Operation.trailing op).floor = Climbing.floorBehind op.priority a := by
  simp [floor, hf]

theorem lt_iff_le_of_ne {p q : Priority} (h : p ≠ q) : p < q ↔ p ≤ q := by
  grind

theorem le_sub_one_iff {p q : Priority} (h : 0 < q) : p ≤ q - 1 ↔ p < q := by
  grind

namespace Operation

variable {p : Operation} {next : Trailing}

theorem yieldsTo_iff_le (hp : p.opensGroup = false)
    (hne : (∀ f, next.form ≠ .between .left f) → next.priority ≠ p.priority) :
    p.yieldsTo next = true ↔ next.priority ≤ p.priority := by
  cases hf : next.form with
  | behind wrap =>
      have hlt := lt_iff_le_of_ne (hne (by simp [hf]))
      simpa [yieldsTo, hp, hf] using hlt
  | between a f =>
      cases a with
      | left => simp [yieldsTo, hp, hf]
      | right =>
          have hlt := lt_iff_le_of_ne (hne (by simp [hf]))
          simpa [yieldsTo, hp, hf] using hlt

theorem yieldsTo_iff_lt (hp : p.opensGroup = false)
    (hne : ∀ f, next.form = .between .left f → next.priority ≠ p.priority) :
    p.yieldsTo next = true ↔ next.priority < p.priority := by
  cases hf : next.form with
  | behind wrap => simp [yieldsTo, hp, hf]
  | between a f =>
      cases a with
      | left =>
          have hlt := lt_iff_le_of_ne (hne f hf)
          simpa [yieldsTo, hp, hf] using hlt.symm
      | right => simp [yieldsTo, hp, hf]

end Operation

/-- Two kinds of operations that climbing and the yard order differently at one priority. -/
inductive Tie where
  | leftRight
  | behindLeft
  | behindLeading
  | rightLeading
  deriving DecidableEq

def Tie.kinds : Tie → Operation.Kind × Operation.Kind
  | .leftRight => (.between .left, .between .right)
  | .behindLeft => (.behind, .between .left)
  | .behindLeading => (.behind, .before)
  | .rightLeading => (.between .right, .before)

namespace Grammar

def ordinary (g : Grammar) : List Operation :=
  (g.leading.map Operation.leading ++ g.trailing.map Operation.trailing).filter fun op =>
    !op.opensGroup && !op.closesGroup

def Tied (g : Grammar) (t : Tie) : Prop :=
  ∃ p ∈ g.ordinary, ∃ q ∈ g.ordinary,
    p.kind = t.kinds.1 ∧ q.kind = t.kinds.2 ∧ p.priority = q.priority

instance (g : Grammar) (t : Tie) : Decidable (g.Tied t) :=
  inferInstanceAs (Decidable (∃ p ∈ g.ordinary, ∃ q ∈ g.ordinary,
    p.kind = t.kinds.1 ∧ q.kind = t.kinds.2 ∧ p.priority = q.priority))

structure Regular (g : Grammar) : Prop where
  opening : ∀ op ∈ g.leading, op.opensGroup = true → op.wrap = .group
  closing : ∀ op ∈ g.trailing, op.name = closeGroup → op.closesGroup = true ∧ op.priority ≤ 0
  leading : ∀ op ∈ g.leading, op.opensGroup = false → 0 ≤ op.priority
  trailing : ∀ op ∈ g.trailing, op.name ≠ closeGroup → 1 ≤ op.priority

def Pends (g : Grammar) : Operation → Prop
  | .leading op => op ∈ g.leading
  | .trailing op => op ∈ g.trailing ∧ ∃ a f, op.form = .between a f

structure Aligned (g : Grammar) : Prop where
  opening : ∀ op ∈ g.leading, op.opensGroup = true → op.wrap = .group
  closing : ∀ op ∈ g.trailing, op.name = closeGroup → op.closesGroup = true ∧ op.priority ≤ 0
  above : ∀ op ∈ g.trailing, op.closesGroup = false → 0 < op.priority
  floor_nonneg : ∀ p, g.Pends p → 0 ≤ p.floor
  yieldsTo_iff : ∀ p, g.Pends p → ∀ op ∈ g.trailing, op.closesGroup = false →
    (p.yieldsTo op = true ↔ op.priority ≤ p.floor)

variable {g : Grammar}

theorem leading_mem_ordinary {op : Leading} (h : op ∈ g.leading) (hg : op.opensGroup = false) :
    Operation.leading op ∈ g.ordinary := by
  have hm : Operation.leading op ∈ g.leading.map .leading ++ g.trailing.map .trailing :=
    List.mem_append_left _ (List.mem_map_of_mem h)
  exact List.mem_filter.mpr ⟨hm, by simp [Operation.opensGroup, Operation.closesGroup, hg]⟩

theorem trailing_mem_ordinary {op : Trailing} (h : op ∈ g.trailing)
    (hg : op.closesGroup = false) : Operation.trailing op ∈ g.ordinary := by
  have hm : Operation.trailing op ∈ g.leading.map .leading ++ g.trailing.map .trailing :=
    List.mem_append_right _ (List.mem_map_of_mem h)
  exact List.mem_filter.mpr ⟨hm, by simp [Operation.opensGroup, Operation.closesGroup, hg]⟩

theorem priority_ne_of_not_tied {t : Tie} (ht : ¬ g.Tied t) {p q : Operation}
    (hp : p ∈ g.ordinary) (hq : q ∈ g.ordinary) (hk : (p.kind, q.kind) = t.kinds) :
    p.priority ≠ q.priority := by
  intro h
  exact ht ⟨p, hp, q, hq, by rw [← hk], by rw [← hk], h⟩

namespace Regular

theorem above (h : g.Regular) : ∀ op ∈ g.trailing, op.closesGroup = false → 0 < op.priority := by
  intro op hop hg
  have hn : op.name ≠ closeGroup := by
    intro hn
    simp [(h.closing op hop hn).1] at hg
  have hp := h.trailing op hop hn
  grind

theorem floor_nonneg (h : g.Regular) : ∀ p, g.Pends p → 0 ≤ p.floor := by
  intro p hp
  cases p with
  | leading op =>
      cases hg : op.opensGroup with
      | true => simp [Operation.floor_group hg]
      | false =>
          rw [Operation.floor_leading hg]
          exact h.leading op hp hg
  | trailing op =>
      obtain ⟨hop, a, f, hf⟩ := hp
      have ha := h.above op hop (Trailing.closesGroup_between hf)
      rw [Operation.floor_between hf]
      cases a with
      | left => exact Int32.le_of_lt ha
      | right => exact (le_sub_one_iff ha).mpr ha

theorem leading_yieldsTo_iff (h : g.Regular) (ht : ∀ t, ¬ g.Tied t) {op : Leading}
    (hop : op ∈ g.leading) {next : Trailing} (hn : next ∈ g.trailing)
    (hc : next.closesGroup = false) :
    (Operation.leading op).yieldsTo next = true ↔
      next.priority ≤ (Operation.leading op).floor := by
  have hq := trailing_mem_ordinary hn hc
  by_cases hg : op.opensGroup = true
  · have ha := h.above next hn hc
    have hy : (Operation.leading op).yieldsTo next = false :=
      Operation.yieldsTo_of_opensGroup (p := .leading op) hg next
    simpa [Operation.floor_group hg, hy] using ha
  · have hg : op.opensGroup = false := by simpa using hg
    have hp := leading_mem_ordinary hop hg
    rw [Operation.floor_leading hg]
    refine Operation.yieldsTo_iff_le hg ?_
    intro hk
    cases hf : next.form with
    | behind wrap =>
        exact priority_ne_of_not_tied (ht .behindLeading) hq hp
          (by simp [Operation.kind, hf, Tie.kinds])
    | between a f =>
        cases a with
        | left => exact absurd hf (hk f)
        | right =>
            exact priority_ne_of_not_tied (ht .rightLeading) hq hp
              (by simp [Operation.kind, hf, Tie.kinds])

theorem trailing_yieldsTo_iff (h : g.Regular) (ht : ∀ t, ¬ g.Tied t) {op : Trailing}
    (hop : op ∈ g.trailing) {a : Associativity} {f : BinaryOperator}
    (hf : op.form = .between a f) {next : Trailing} (hn : next ∈ g.trailing)
    (hc : next.closesGroup = false) :
    (Operation.trailing op).yieldsTo next = true ↔
      next.priority ≤ (Operation.trailing op).floor := by
  have hp := trailing_mem_ordinary hop (Trailing.closesGroup_between hf)
  have hq := trailing_mem_ordinary hn hc
  rw [Operation.floor_between hf]
  cases a with
  | left =>
      refine Operation.yieldsTo_iff_le rfl ?_
      intro hk
      cases hnf : next.form with
      | behind wrap =>
          exact priority_ne_of_not_tied (ht .behindLeft) hq hp
            (by simp [Operation.kind, hf, hnf, Tie.kinds])
      | between b k =>
          cases b with
          | left => exact absurd hnf (hk k)
          | right =>
              exact (priority_ne_of_not_tied (ht .leftRight) hp hq
                (by simp [Operation.kind, hf, hnf, Tie.kinds])).symm
  | right =>
      have hb := le_sub_one_iff (p := next.priority)
                        (h.above op hop (Trailing.closesGroup_between hf))
      refine Iff.trans (Operation.yieldsTo_iff_lt rfl ?_) hb.symm
      intro k hnf
      exact priority_ne_of_not_tied (ht .leftRight) hq hp
        (by simp [Operation.kind, hf, hnf, Tie.kinds])

theorem aligned (h : g.Regular) (ht : ∀ t, ¬ g.Tied t) : g.Aligned where
  opening := h.opening
  closing := h.closing
  above := h.above
  floor_nonneg := h.floor_nonneg
  yieldsTo_iff := by
    intro p hp next hn hc
    cases p with
    | leading op => exact h.leading_yieldsTo_iff ht hp hn hc
    | trailing op =>
        obtain ⟨hop, a, f, hf⟩ := hp
        exact h.trailing_yieldsTo_iff ht hop hf hn hc

end Regular

end Grammar

end InfixArithmetic

import InfixArithmetic.Proofs.CalculatorPrograms
import InfixArithmetic.Proofs.Floors

/-!
Expressions held by a yard.  Between an expression that has been read and the operation behind it,
the yard still holds the operations along the right edge of that expression.  What it has emitted
since the expression began becomes a postfix program of it once they are emitted too.
-/

namespace InfixArithmetic

namespace Yard

variable {g : Grammar} {y z : Yard} {e : Expression} {ops : List Operation} {word : String}

def floor (y : Yard) : Priority :=
  match y.pending with
  | [] => 0
  | p :: _ => p.floor

def Waits (g : Grammar) (y : Yard) : Prop :=
  ∀ p ∈ y.pending, g.Pends p

theorem waits_of_pending {op : Operation} (hz : z.pending = op :: y.pending) (hy : y.Waits g)
    (hop : g.Pends op) : z.Waits g := by
  intro p hp
  rw [hz] at hp
  rcases List.mem_cons.mp hp with rfl | hp
  · exact hop
  · exact hy p hp

theorem floor_of_pending {op : Operation} {rest : List Operation} (hz : z.pending = op :: rest) :
    z.floor = op.floor := by
  simp [floor, hz]

structure Holds (g : Grammar) (y : Yard) (e : Expression) (ops : List Operation) (z : Yard) :
    Prop where
  ready : z.expecting = false
  pending : z.pending = ops ++ y.pending
  pends : ∀ p ∈ ops, g.Pends p ∧ p.opensGroup = false
  emitted : ∃ p, Postfix g e p ∧ ops.reverse.map .operation ++ z.emitted = p.reverse ++ y.emitted
  programFree : e.programFree = true

theorem read_value (hy : y.expecting = true) (h : g.readOperand word = .ok none) :
    ∃ z, y.read g word = .ok z ∧ Holds g y (.value word) [] z := by
  refine ⟨{ y.emit (.value word) with expecting := false }, ?_, ?_⟩
  · simp [read, hy, readOperand, h]
  · exact ⟨rfl, rfl, by simp, ⟨_, .value word, rfl⟩, rfl⟩

theorem read_leading (hy : y.expecting = true) {op : Leading}
    (h : g.readOperand word = .ok (some op)) : y.read g word = .ok (y.push (.leading op)) := by
  simp [read, hy, readOperand, h]

theorem read_operand_error (hy : y.expecting = true) {cause : SyntaxError}
    (h : g.readOperand word = .error cause) : y.read g word = .error cause := by
  simp [read, hy, readOperand, h]

theorem read_operation_error (hy : y.expecting = false) {cause : SyntaxError}
    (h : g.readOperation word = .error cause) : y.read g word = .error cause := by
  simp [read, hy, readOperation, h]

namespace Holds

theorem leading {op : Leading} (hop : op ∈ g.leading) (hg : op.opensGroup = false)
    (h : Holds g (y.push (.leading op)) e ops z) :
    Holds g y (op.wrap.build e) (ops ++ [.leading op]) z := by
  obtain ⟨p, hp, he⟩ := h.emitted
  refine ⟨h.ready, ?_, ?_, ⟨_, .leading hop hg hp, ?_⟩, ?_⟩
  · simp [h.pending, push]
  · intro q hq
    rcases List.mem_append.mp hq with hq | hq
    · exact h.pends q hq
    · obtain rfl := List.mem_singleton.mp hq
      exact ⟨hop, hg⟩
  · simpa [push] using he
  · rw [Wrap.programFree_build]
    exact h.programFree

theorem between {op : Trailing} {a : Associativity} {f : BinaryOperator} (hop : op ∈ g.trailing)
    (hf : op.form = .between a f) {left right : Expression} {p : Program} {y' : Yard}
    (hl : Postfix g left p) (hfree : left.programFree = true)
    (hp : y'.pending = .trailing op :: y.pending) (he : y'.emitted = p.reverse ++ y.emitted)
    (h : Holds g y' right ops z) : Holds g y (.binary f left right) (ops ++ [.trailing op]) z := by
  obtain ⟨q, hq, hz⟩ := h.emitted
  refine ⟨h.ready, ?_, ?_, ⟨_, .between hop hf hl hq, ?_⟩, ?_⟩
  · simp [h.pending, hp]
  · intro r hr
    rcases List.mem_append.mp hr with hr | hr
    · exact h.pends r hr
    · obtain rfl := List.mem_singleton.mp hr
      exact ⟨⟨hop, a, f, hf⟩, rfl⟩
  · simpa [he] using hz
  · simp [Expression.programFree, hfree, h.programFree]

theorem flush (hg : g.Aligned) (hy : y.Waits g) (h : Holds g y e ops z) {op : Trailing}
    (hop : op ∈ g.trailing) (hc : op.closesGroup = false)
    (hle : ∀ p ∈ ops, op.priority ≤ p.floor) (hlt : y.floor < op.priority) :
    z.flushWhile (·.yieldsTo op) =
      { z with pending := y.pending, emitted := ops.reverse.map .operation ++ z.emitted } := by
  refine flushWhile_append h.pending ?_ ?_
  · intro p hp
    exact (hg.yieldsTo_iff p (h.pends p hp).1 op hop hc).mpr (hle p hp)
  · intro p hp
    have hf : y.floor = p.floor := by
      cases hq : y.pending with
      | nil => simp [hq] at hp
      | cons q rest =>
          obtain rfl : q = p := by simpa [hq] using hp
          exact floor_of_pending hq
    have hi := hg.yieldsTo_iff p (hy p (List.mem_of_head? hp)) op hop hc
    cases hb : p.yieldsTo op with
    | false => rfl
    | true => exact absurd (hi.mp hb) (by simpa [← hf] using hlt)

theorem read_behind (hg : g.Aligned) (hy : y.Waits g) (h : Holds g y e ops z) {op : Trailing}
    (hr : g.readOperation word = .ok op) (hc : op.closesGroup = false) {wrap : Wrap}
    (hf : op.form = .behind wrap) (hle : ∀ p ∈ ops, op.priority ≤ p.floor)
    (hlt : y.floor < op.priority) :
    ∃ z', z.read g word = .ok z' ∧ Holds g y (wrap.build e) [] z' := by
  have hop := (Grammar.readOperation_eq_ok hr).1
  have hz := h.flush hg hy hop hc hle hlt
  obtain ⟨p, hp, he⟩ := h.emitted
  refine ⟨(z.flushWhile (·.yieldsTo op)).emit (.operation (.trailing op)), ?_, ?_⟩
  · simp [read, h.ready, readOperation, hr, hc, hf]
  · rw [hz]
    refine ⟨h.ready, rfl, by simp, ⟨_, .behind hop hf hc hp, ?_⟩, ?_⟩
    · simpa [emit] using he
    · rw [Wrap.programFree_build]
      exact h.programFree

theorem read_between (hg : g.Aligned) (hy : y.Waits g) (h : Holds g y e ops z) {op : Trailing}
    (hr : g.readOperation word = .ok op) {a : Associativity} {f : BinaryOperator}
    (hf : op.form = .between a f) (hle : ∀ p ∈ ops, op.priority ≤ p.floor)
    (hlt : y.floor < op.priority) :
    ∃ z', z.read g word = .ok z' ∧ z'.expecting = true ∧
      z'.pending = .trailing op :: y.pending ∧
      ∀ right ops' z'', Holds g z' right ops' z'' →
        Holds g y (.binary f e right) (ops' ++ [.trailing op]) z'' := by
  have hop := (Grammar.readOperation_eq_ok hr).1
  have hc := Trailing.closesGroup_between hf
  have hz := h.flush hg hy hop hc hle hlt
  obtain ⟨p, hp, he⟩ := h.emitted
  refine ⟨(z.flushWhile (·.yieldsTo op)).push (.trailing op), ?_, rfl, ?_, ?_⟩
  · simp [read, h.ready, readOperation, hr, hc, hf]
  · simp [hz, push]
  · intro right ops' z'' hright
    exact between hop hf hp h.programFree (by simp [hz, push])
      (by simpa [hz, push] using he) hright

theorem flush_group {op : Leading} (hg : op.opensGroup = true)
    (h : Holds g (y.push (.leading op)) e ops z) :
    z.flushWhile (!·.opensGroup) =
      { z with
        pending := .leading op :: y.pending
        emitted := ops.reverse.map .operation ++ z.emitted } := by
  refine flushWhile_append h.pending ?_ ?_
  · intro p hp
    simp [(h.pends p hp).2]
  · intro p hp
    obtain rfl : .leading op = p := by simpa [push] using hp
    simp [Operation.opensGroup, hg]

theorem read_close {op : Leading} (ho : op.opensGroup = true)
    (h : Holds g (y.push (.leading op)) e ops z) {next : Trailing}
    (hr : g.readOperation word = .ok next) (hc : next.closesGroup = true) :
    ∃ z', z.read g word = .ok z' ∧ Holds g y e [] z' := by
  have hz := h.flush_group ho
  obtain ⟨p, hp, he⟩ := h.emitted
  refine ⟨{ z with pending := y.pending, emitted := ops.reverse.map .operation ++ z.emitted }, ?_,
    ⟨h.ready, rfl, by simp, ⟨p, hp, he⟩, h.programFree⟩⟩
  simp [read, h.ready, readOperation, hr, hc, close, hz]

theorem read_stray (hy : y.pending = []) (h : Holds g y e ops z) {next : Trailing}
    (hr : g.readOperation word = .ok next) (hc : next.closesGroup = true) :
    z.read g word = .error .unmatchedParentheses := by
  have hz : z.flushWhile (!·.opensGroup) =
      { z with pending := [], emitted := ops.reverse.map .operation ++ z.emitted } := by
    refine flushWhile_append (by rw [h.pending, hy]) ?_ (by simp)
    intro p hp
    simp [(h.pends p hp).2]
  simp [read, h.ready, readOperation, hr, hc, close, hz]

theorem finish (hp : y.pending = []) (he : y.emitted = []) (h : Holds g y e ops z) :
    ∃ p, Postfix g e p ∧ z.finish = .ok p := by
  obtain ⟨p, hpost, hem⟩ := h.emitted
  have hz : z.pending = ops := by rw [h.pending, hp, List.append_nil]
  have hno : ops.any (·.opensGroup) = false := by
    rw [List.any_eq_false]
    intro q hq
    simp [(h.pends q hq).2]
  have hout : z.emitted.reverse ++ ops.map .operation = p := by
    rw [he, List.append_nil] at hem
    have hrev := congrArg List.reverse hem
    simpa using hrev
  exact ⟨p, hpost, by simp [Yard.finish, h.ready, hz, hno, hout]⟩

theorem finish_open {op : Leading} (hg : op.opensGroup = true)
    (h : Holds g (y.push (.leading op)) e ops z) : z.finish = .error .unmatchedParentheses := by
  have ho : z.pending.any (·.opensGroup) = true := by
    rw [h.pending]
    simp [push, Operation.opensGroup, hg]
  simp [Yard.finish, h.ready, ho]

end Holds

end Yard

end InfixArithmetic

import InfixArithmetic.Proofs.Operands
import InfixArithmetic.Proofs.YardSteps

/-!
What the yard emits.  As many operands lie on the stack as operations wait for their right one, and
one more once it has been read, so a program that the yard hands over never lacks an operand and
never leaves one behind.
-/

namespace InfixArithmetic

namespace Yard

variable {W J : Type} {g : Grammar W J} {y z : Yard W J} {word : String} {words : List String}
  {p : Program W J}

/-- How many operands the emitted program should leave. -/
def operands (y : Yard W J) : Nat :=
  y.pending.countP (·.arity = 2) + if y.expecting then 0 else 1

theorem operands_of_ready (hy : y.expecting = false) {ops kept : List (Operation W J)}
    (hp : y.pending = ops ++ kept) :
    y.operands = ops.countP (·.arity = 2) + kept.countP (·.arity = 2) + 1 := by
  simp [operands, hy, hp]

theorem leaves_flush (h : Program.leaves y.emitted.reverse 0 = some y.operands)
    (hy : y.expecting = false) {ops kept : List (Operation W J)} (hp : y.pending = ops ++ kept) :
    Program.leaves (ops.reverse.map Instruction.operation ++ y.emitted).reverse 0 =
      some (kept.countP (·.arity = 2) + 1) := by
  rw [operands_of_ready hy hp] at h
  simp [Program.leaves_append, h, Program.leaves_operations]

theorem Step.leaves (hs : Step g y word z)
    (h : Program.leaves y.emitted.reverse 0 = some y.operands) :
    Program.leaves z.emitted.reverse 0 = some z.operands := by
  cases hs with
  | value hy hk =>
      rw [List.reverse_cons, Program.leaves_append, h, Option.bind_some,
        Program.leaves_singleton (Nat.zero_le _)]
      simp [Instruction.arity, operands, hy]
  | leading hy hl => simpa [operands, hy, Operation.arity] using h
  | behind hy hl hf hc hp ho hk =>
      have hl := leaves_flush h hy hp
      rw [List.reverse_cons, Program.leaves_append, hl, Option.bind_some,
        Program.leaves_singleton (by simp [Instruction.arity, Operation.arity_behind hf])]
      simp [Instruction.arity, Operation.arity_behind hf, operands, hy]
  | between hy hl hf hp ho hk =>
      rw [leaves_flush h hy hp]
      simp [operands, Operation.arity_between hf]
  | @close op group inner outer hy hl hc hp hi hg =>
      rw [leaves_flush h hy hp]
      cases group with
      | leading group => simp [operands, hy, Operation.arity]
      | trailing group => cases hg

theorem Step.values (hs : Step g y word z) :
    Program.values z.emitted.reverse =
      Program.values y.emitted.reverse ++ [word].filter (!g.knows ·) := by
  cases hs with
  | value hy hk => simp [Program.values, hk]
  | leading hy hl => simp [Grammar.knows_of_leading? hl]
  | behind hy hl hf hc hp ho hk =>
      simp [Program.values_append, Program.values_operations, Grammar.knows_of_trailing? hl]
      simp [Program.values]
  | between hy hl hf hp ho hk =>
      simp [Program.values_append, Program.values_operations, Grammar.knows_of_trailing? hl]
  | close hy hl hc hp hi hg =>
      simp [Program.values_append, Program.values_operations, Grammar.knows_of_trailing? hl]

/-- Groups wait without ever being emitted, and a closing does not even wait. -/
structure Ungrouped (y : Yard W J) : Prop where
  pending : ∀ op ∈ y.pending, op.closesGroup = false
  emitted : ∀ op, .operation op ∈ y.emitted → op.opensGroup = false ∧ op.closesGroup = false

theorem Ungrouped.flush (h : y.Ungrouped) {ops kept : List (Operation W J)}
    (hp : y.pending = ops ++ kept) (ho : ∀ op ∈ ops, op.opensGroup = false) :
    ∀ op, .operation op ∈ ops.reverse.map Instruction.operation ++ y.emitted →
      op.opensGroup = false ∧ op.closesGroup = false := by
  intro op hm
  rcases List.mem_append.mp hm with hm | hm
  · have hops : op ∈ ops := by simpa using hm
    exact ⟨ho op hops, h.pending op (by simp [hp, hops])⟩
  · exact h.emitted op hm

theorem Step.ungrouped (hs : Step g y word z) (h : y.Ungrouped) : z.Ungrouped := by
  cases hs with
  | value hy hk => exact ⟨h.pending, by simpa using h.emitted⟩
  | leading hy hl => exact ⟨by simpa [Operation.closesGroup] using h.pending, h.emitted⟩
  | behind hy hl hf hc hp ho hk =>
      have hflush := h.flush hp fun op hm => opensGroup_of_yieldsTo (ho op hm)
      constructor
      · intro op hm
        exact h.pending op (by simp [hp, hm])
      · intro op hm
        rcases List.mem_cons.mp hm with heq | hm
        · cases heq
          exact ⟨rfl, hc⟩
        · exact hflush op hm
  | between hy hl hf hp ho hk =>
      refine ⟨?_, h.flush hp fun op hm => opensGroup_of_yieldsTo (ho op hm)⟩
      intro op hm
      rcases List.mem_cons.mp hm with rfl | hm
      · exact Trailing.closesGroup_between hf
      · exact h.pending op (by simp [hp, hm])
  | close hy hl hc hp hi hg =>
      refine ⟨?_, h.flush hp hi⟩
      intro op hm
      exact h.pending op (by simp [hp, hm])

namespace Reads

theorem leaves (h : Reads g {} words z) : Program.leaves z.emitted.reverse 0 = some z.operands := by
  refine h.invariant (P := fun _ y => Program.leaves y.emitted.reverse 0 = some y.operands) ?_ ?_
  · rfl
  · intro ws u w v hu hs
    exact hs.leaves hu

theorem values (h : Reads g {} words z) :
    Program.values z.emitted.reverse = words.filter (!g.knows ·) := by
  refine h.invariant
    (P := fun ws y => Program.values y.emitted.reverse = ws.filter (!g.knows ·)) ?_ ?_
  · rfl
  · intro ws u w v hu hs
    rw [hs.values, hu, List.filter_append]

theorem ungrouped (h : Reads g {} words z) : z.Ungrouped := by
  refine h.invariant (P := fun _ y => y.Ungrouped) ?_ ?_
  · exact ⟨by simp, by simp⟩
  · intro ws u w v hu hs
    exact hs.ungrouped hu

end Reads

theorem parse_eq_none_iff : (parse g words).1 = .ok none ↔ words = [] := by
  rw [parse_eq_none]
  constructor
  · rintro ⟨z, hr, hf⟩
    obtain ⟨hu, _, hp⟩ := finish_eq_ok.mp hf
    cases he : z.expecting with
    | true => exact hr.eq_nil_of_isUntouched (hu he)
    | false => simp [hr.emitted_ne_nil he] at hp
  · rintro rfl
    exact ⟨{}, reads_nil.mpr rfl, rfl⟩

theorem parse_leaves (h : (parse g words).1 = .ok (some p)) : p.leaves 0 = some 1 := by
  obtain ⟨z, hr, he, _, rfl⟩ := parse_eq_some_iff_ready.mp h
  have hl := leaves_flush hr.leaves he (List.append_nil z.pending).symm
  simpa [Program.leaves_append] using hl

theorem parse_values (h : (parse g words).1 = .ok (some p)) :
    p.values = words.filter (!g.knows ·) := by
  obtain ⟨z, hr, _, _, rfl⟩ := parse_eq_some_iff_ready.mp h
  rw [Program.values_append, Program.values_operations, List.append_nil, hr.values]

theorem parse_ungrouped (h : (parse g words).1 = .ok (some p)) :
    ∀ op, .operation op ∈ p → op.opensGroup = false ∧ op.closesGroup = false := by
  obtain ⟨z, hr, _, ho, rfl⟩ := parse_eq_some_iff_ready.mp h
  intro op hm
  refine hr.ungrouped.flush (List.append_nil z.pending).symm ho op ?_
  simpa [or_comm] using hm

end Yard

theorem yard_programs_are_well_formed (g : Grammar) (words : List String) :
    ((Yard.parse g words).1 = .ok none ↔ words = []) ∧
    ∀ p, (Yard.parse g words).1 = .ok (some p) →
      (∀ op, .operation op ∈ p → op.opensGroup = false ∧ op.closesGroup = false) ∧
      p.values = words.filter (!g.knows ·) ∧
      p.evaluate ≠ .error .stackUnderflow ∧
      ∀ count, p.evaluate ≠ .error (.unconsumedOperands count) := by
  refine ⟨Yard.parse_eq_none_iff, ?_⟩
  intro p h
  have hm := Program.not_malformed (Yard.parse_leaves h)
  refine ⟨Yard.parse_ungrouped h, Yard.parse_values h, ?_, ?_⟩
  · intro hu
    exact hm ⟨_, hu, rfl⟩
  · intro count hu
    exact hm ⟨_, hu, rfl⟩

end InfixArithmetic

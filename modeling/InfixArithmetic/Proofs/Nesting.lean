import InfixArithmetic.Proofs.Acceptance
import InfixArithmetic.Proofs.Emission
import InfixArithmetic.Proofs.ModeAgreement

/-!
When climbing nests too deep: as soon as the yard, reading the same words, holds as many pending
operations as levels may be open.  Every group, every operation before its operand and every one
between its operands waits there as one of them.
-/

namespace InfixArithmetic

open Climbing (nestingLimit)
open Grammar (calculator)

namespace Grammar

variable {g : Grammar} {word : String} {limit : Nat}

theorem readOperand_ne_tooDeep : g.readOperand word ≠ .error (.nestingTooDeep limit) := by
  simp only [readOperand, getLeading]
  split
  · cases g.leading? word <;> simp [Except.map]
  · simp

theorem readOperation_ne_tooDeep : g.readOperation word ≠ .error (.nestingTooDeep limit) := by
  simp only [readOperation, getTrailing]
  split
  · cases g.trailing? word <;> simp
  · simp

end Grammar

namespace Yard

variable {g : Grammar} {y z : Yard} {word : String} {words rest : List String} {limit : Nat}

theorem close_ne_tooDeep : y.close ≠ .error (.nestingTooDeep limit) := by
  simp only [close]
  cases (y.flushWhile (!·.opensGroup)).pending <;> simp

theorem read_ne_tooDeep : y.read g word ≠ .error (.nestingTooDeep limit) := by
  cases hy : y.expecting with
  | true =>
      simp only [read, hy, readOperand, if_true]
      cases ho : g.readOperand word with
      | error cause =>
          rintro ⟨⟩
          exact Grammar.readOperand_ne_tooDeep ho
      | ok found => cases found <;> simp
  | false =>
      simp only [read, hy, readOperation, Bool.false_eq_true, if_false]
      cases ho : g.readOperation word with
      | error cause =>
          rintro ⟨⟩
          exact Grammar.readOperation_ne_tooDeep ho
      | ok op =>
          cases hc : op.closesGroup with
          | true => simpa [hc] using close_ne_tooDeep
          | false => cases hf : op.form <;> simp [hc, hf]

theorem finish_ne_tooDeep : y.finish ≠ .error (.nestingTooDeep limit) := by
  simp only [finish]
  split
  · simp
  · split <;> simp

/-- At some point of reading the words, so many operations are pending. -/
def Reaches (g : Grammar) (limit : Nat) (y : Yard) (words : List String) : Prop :=
  ∃ read rest z, words = read ++ rest ∧ Reads g y read z ∧ limit ≤ z.pending.length

theorem reaches_of_le (h : limit ≤ y.pending.length) : y.Reaches g limit words :=
  ⟨[], words, y, rfl, reads_nil.mpr rfl, h⟩

theorem reaches_nil : y.Reaches g limit [] ↔ limit ≤ y.pending.length := by
  constructor
  · rintro ⟨read, rest, z, hw, hr, hl⟩
    obtain ⟨rfl, rfl⟩ := List.append_eq_nil_iff.mp hw.symm
    obtain rfl := reads_nil.mp hr
    exact hl
  · exact reaches_of_le

theorem reaches_cons :
    y.Reaches g limit (word :: rest) ↔
      limit ≤ y.pending.length ∨ ∃ mid, Step g y word mid ∧ mid.Reaches g limit rest := by
  constructor
  · rintro ⟨read, left, z, hw, hr, hl⟩
    cases read with
    | nil =>
        obtain rfl := reads_nil.mp hr
        exact Or.inl hl
    | cons first read =>
        obtain ⟨rfl, rfl⟩ := List.cons.inj hw
        obtain ⟨mid, hs, hr⟩ := reads_cons.mp hr
        exact Or.inr ⟨mid, hs, read, left, z, rfl, hr, hl⟩
  · rintro (hl | ⟨mid, hs, read, left, z, rfl, hr, hl⟩)
    · exact reaches_of_le hl
    · exact ⟨word :: read, left, z, rfl, reads_cons.mpr ⟨mid, hs, hr⟩, hl⟩

theorem Step.length_le (hs : Step g y word z) (hz : z.expecting = false) :
    z.pending.length ≤ y.pending.length := by
  cases hs with
  | value => exact Nat.le_refl _
  | leading | between => cases hz
  | behind _ _ _ _ hp => simp [hp]
  | close _ _ _ hp => simp [hp]; omega

theorem guarded_tooDeep_iff (hy : y.expecting = false → y.pending.length < nestingLimit) :
    (guarded g y words).1 = .error (.nestingTooDeep nestingLimit) ↔
      y.Reaches g nestingLimit words := by
  induction words generalizing y with
  | nil =>
      rw [reaches_nil]
      cases hf : y.full with
      | true => simp_all [guarded_full hf, full]
      | false =>
          rw [guarded_nil hf]
          cases he : y.expecting <;> simp_all [finish_ne_tooDeep, full]
  | cons word rest ih =>
      rw [reaches_cons]
      cases hf : y.full with
      | true => simp_all [guarded_full hf, full]
      | false =>
          have hlt : y.pending.length < nestingLimit := by
            cases he : y.expecting with
            | true => simpa [full, he] using hf
            | false => exact hy he
          have hle : ¬ nestingLimit ≤ y.pending.length := by omega
          cases hr : y.read g word with
          | error cause =>
              have hne : cause ≠ .nestingTooDeep nestingLimit := by
                rintro rfl
                exact read_ne_tooDeep hr
              have hns : ∀ mid, ¬ Step g y word mid := by
                intro mid hs
                cases hr.symm.trans hs.read
              simp [guarded_refused hf hr, hne, hle, hns]
          | ok next =>
              have hs := read_eq_ok.mp hr
              -- A step that leaves no operand expected adds nothing to what is pending.
              rw [guarded_step hf hr, ih fun he => Nat.lt_of_le_of_lt (hs.length_le he) hlt]
              constructor
              · exact fun h => Or.inr ⟨next, hs, h⟩
              · rintro (h | ⟨mid, hm, h⟩)
                · exact absurd h hle
                · obtain rfl := Except.ok.inj (hr.symm.trans hm.read)
                  exact h

theorem guarded_limit (h : (guarded g y words).1 = .error (.nestingTooDeep limit)) :
    limit = nestingLimit := by
  rcases guarded_fst y words with hn | hn
  · cases h.symm.trans hn
    rfl
  · rw [hn] at h
    exfalso
    clear hn
    induction words generalizing y with
    | nil => exact finish_ne_tooDeep h
    | cons word rest ih =>
        simp only [readAll] at h
        cases hr : y.read g word with
        | error cause =>
            rw [hr] at h
            cases h
            exact read_ne_tooDeep hr
        | ok next =>
            rw [hr] at h
            exact ih h

theorem Step.waits (hs : Step g y word z) (h : y.Waits g) : z.Waits g := by
  cases hs with
  | value => exact h
  | leading hy hl => exact waits_of_pending rfl h (Grammar.leading?_eq_some hl).1
  | behind _ _ _ _ hp =>
      intro q hq
      exact h q (by simp [hp, hq])
  | @between op a f ops kept hy hl hf hp =>
      intro q hq
      rcases List.mem_cons.mp hq with rfl | hq
      · exact ⟨(Grammar.trailing?_eq_some hl).1, a, f, hf⟩
      · exact h q (by simp [hp, hq])
  | close _ _ _ hp =>
      intro q hq
      exact h q (by simp [hp, hq])

theorem Reads.waits (h : Reads g {} words z) : z.Waits g := by
  refine h.invariant (P := fun _ y => y.Waits g) ?_ ?_
  · simp [Waits]
  · intro ws u w v hu hs
    exact hs.waits hu

theorem length_of_waits (h : y.Waits g) :
    y.pending.length = y.pending.countP (·.arity = 2) +
      y.pending.countP (fun p => p.leads && !p.opensGroup) + y.groups := by
  simp only [groups]
  simp only [Waits] at h
  generalize y.pending = pending at h ⊢
  induction pending with
  | nil => rfl
  | cons p pending ih =>
      have hrest := ih fun q hq => h q (List.mem_cons_of_mem p hq)
      have hp := h p List.mem_cons_self
      simp only [List.length_cons, List.countP_cons]
      cases p with
      | leading op =>
          have ha : (Operation.leading op : Operation).arity = 1 := rfl
          have hl : (Operation.leading op : Operation).leads = true := rfl
          cases ho : (Operation.leading op : Operation).opensGroup <;> simp [ha, hl] <;> omega
      | trailing op =>
          obtain ⟨_, a, f, hf⟩ := hp
          have ha := Operation.arity_between hf
          have hl : (Operation.trailing op).leads = false := rfl
          have ho : (Operation.trailing op).opensGroup = false := rfl
          simp [ha, hl, ho]
          omega

end Yard

theorem climbing_tooDeep_iff {g : Grammar} (hg : g.Aligned) {words : List String} {limit : Nat} :
    (Climbing.parse g { words }).1 = .error (.nestingTooDeep limit) ↔
      limit = nestingLimit ∧ Yard.Reaches g nestingLimit {} words := by
  rw [← Yard.guarded_tooDeep_iff (by simp [nestingLimit])]
  have ht := guarded_of_parse hg words
  generalize Climbing.parse g { words } = o at ht
  obtain ⟨r, after⟩ := o
  cases r with
  | error cause =>
      rw [show Yard.guarded g {} words = (.error cause, after.words) from ht]
      constructor
      · rintro ⟨⟩
        obtain rfl := Yard.guarded_limit (congrArg Prod.fst ht)
        exact ⟨rfl, rfl⟩
      · rintro ⟨rfl, h⟩
        exact congrArg _ (Except.error.inj h)
  | ok found =>
      cases found with
      | none =>
          obtain rfl : words = [] := ht
          simp [Yard.guarded, Yard.full, nestingLimit, Yard.finish_ne_tooDeep]
      | some e =>
          obtain ⟨_, p, _, hz⟩ := ht
          simp [hz]

theorem nesting_guard_fires_iff (words : List String) :
    (∀ limit, (Climbing.parse calculator { words }).1 = .error (.nestingTooDeep limit) ↔
      limit = nestingLimit ∧ Yard.Reaches calculator nestingLimit {} words) ∧
    ∀ read y, Yard.Reads calculator {} read y →
      y.pending.length = y.pending.countP (·.arity = 2) +
        y.pending.countP (fun p => p.leads && !p.opensGroup) +
        y.pending.countP (·.opensGroup) := by
  constructor
  · intro limit
    exact climbing_tooDeep_iff aligned_calculator
  · intro read y h
    exact Yard.length_of_waits h.waits

end InfixArithmetic

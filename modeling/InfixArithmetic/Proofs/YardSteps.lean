import InfixArithmetic.Parsing.Yard

/-!
Steps of a yard.  A word that is not refused is read in one of five ways, by what it means where it
stands, and what every one of them keeps holds of each yard that words lead to.
-/

namespace InfixArithmetic

namespace Yard

variable {W J : Type} {g : Grammar W J} {y z : Yard W J} {word : String} {words : List String}
  {p : Program W J}

inductive Step (g : Grammar W J) (y : Yard W J) (word : String) : Yard W J → Prop
  | value (hy : y.expecting = true) (h : g.knows word = false) :
      Step g y word { y with expecting := false, emitted := .value word :: y.emitted }
  | leading {op : Leading W} (hy : y.expecting = true) (h : g.leading? word = some op) :
      Step g y word { y with expecting := true, pending := .leading op :: y.pending }
  | behind {op : Trailing W J} {wrap : W} {ops kept : List (Operation W J)}
      (hy : y.expecting = false)
      (h : g.trailing? word = some op) (hf : op.form = .behind wrap) (hc : op.closesGroup = false)
      (hp : y.pending = ops ++ kept) (ho : ∀ p ∈ ops, p.yieldsTo op = true)
      (hk : ∀ p, kept.head? = some p → p.yieldsTo op = false) :
      Step g y word
        { y with
          pending := kept
          emitted := .operation (.trailing op) :: (ops.reverse.map .operation ++ y.emitted) }
  | between {op : Trailing W J} {a : Associativity} {join : J} {ops kept : List (Operation W J)}
      (hy : y.expecting = false) (h : g.trailing? word = some op) (hf : op.form = .between a join)
      (hp : y.pending = ops ++ kept) (ho : ∀ p ∈ ops, p.yieldsTo op = true)
      (hk : ∀ p, kept.head? = some p → p.yieldsTo op = false) :
      Step g y word
        { expecting := true
          pending := .trailing op :: kept
          emitted := ops.reverse.map .operation ++ y.emitted }
  | close {op : Trailing W J} {group : Operation W J} {inner outer : List (Operation W J)}
      (hy : y.expecting = false) (h : g.trailing? word = some op) (hc : op.closesGroup = true)
      (hp : y.pending = inner ++ group :: outer) (hi : ∀ p ∈ inner, p.opensGroup = false)
      (hg : group.opensGroup = true) :
      Step g y word
        { y with pending := outer, emitted := inner.reverse.map .operation ++ y.emitted }

theorem opensGroup_of_yieldsTo {q : Operation W J} {op : Trailing W J} (h : q.yieldsTo op = true) :
    q.opensGroup = false := by
  cases hq : q.opensGroup with
  | false => rfl
  | true => simp [Operation.yieldsTo_of_opensGroup hq] at h

theorem Step.read (h : Step g y word z) : y.read g word = .ok z := by
  cases h with
  | value hy h => simp [Yard.read, hy, readOperand, Grammar.readOperand_eq_none.mpr h, emit]
  | leading hy h =>
      simp [Yard.read, hy, readOperand, Grammar.readOperand_of_leading? h, push]
  | behind hy h hf hc hp ho hk =>
      simp [Yard.read, hy, readOperation, Grammar.readOperation_of_trailing? h, hc, hf,
        flushWhile_append hp ho hk, emit]
  | between hy h hf hp ho hk =>
      simp [Yard.read, hy, readOperation, Grammar.readOperation_of_trailing? h,
        Trailing.closesGroup_between hf, hf, flushWhile_append hp ho hk, push]
  | @close op group inner outer hy h hc hp hi hg =>
      have hflush : y.flushWhile (!·.opensGroup) = { y with
          pending := group :: outer, emitted := inner.reverse.map .operation ++ y.emitted } :=
        flushWhile_append hp (by simpa using hi) (by simpa using hg)
      simp [Yard.read, hy, readOperation, Grammar.readOperation_of_trailing? h, hc, Yard.close,
        hflush]

theorem step_of_readOperand (hy : y.expecting = true) (h : y.readOperand g word = .ok z) :
    Step g y word z := by
  simp only [readOperand] at h
  cases ho : g.readOperand word with
  | error cause => simp [ho] at h
  | ok found =>
      rw [ho] at h
      cases found with
      | none =>
          cases h
          exact .value hy (Grammar.readOperand_eq_none.mp ho)
      | some op =>
          cases h
          exact .leading hy (Grammar.leading?_of_readOperand ho)

theorem step_of_close (hy : y.expecting = false) {op : Trailing W J}
    (ho : g.trailing? word = some op)
    (hc : op.closesGroup = true) (h : y.close = .ok z) : Step g y word z := by
  obtain ⟨inner, kept, hp, hi, hk, hflush⟩ := exists_flushWhile (!·.opensGroup) y
  rw [close, hflush] at h
  cases kept with
  | nil => cases h
  | cons group outer =>
      cases h
      exact .close hy ho hc hp (by simpa using hi) (by simpa using hk)

theorem step_of_readOperation (hy : y.expecting = false) (h : y.readOperation g word = .ok z) :
    Step g y word z := by
  simp only [readOperation] at h
  cases hr : g.readOperation word with
  | error cause => simp [hr] at h
  | ok op =>
      have ho := Grammar.trailing?_of_readOperation hr
      rw [hr] at h
      cases hc : op.closesGroup with
      | true => exact step_of_close hy ho hc (by simpa [hc] using h)
      | false =>
          obtain ⟨ops, kept, hp, hops, hk, hflush⟩ := exists_flushWhile (·.yieldsTo op) y
          cases hf : op.form with
          | behind wrap =>
              have hz : (y.flushWhile (·.yieldsTo op)).emit (.operation (.trailing op)) = z := by
                simpa [hc, hf] using h
              rw [← hz, hflush]
              exact .behind hy ho hf hc hp hops hk
          | between a f =>
              have hz : (y.flushWhile (·.yieldsTo op)).push (.trailing op) = z := by
                simpa [hc, hf] using h
              rw [← hz, hflush]
              exact .between hy ho hf hp hops hk

theorem read_eq_ok : y.read g word = .ok z ↔ Step g y word z := by
  constructor
  · intro h
    cases hy : y.expecting with
    | true => exact step_of_readOperand hy (by simpa [read, hy] using h)
    | false => exact step_of_readOperation hy (by simpa [read, hy] using h)
  · exact Step.read

/-- The words lead from one yard to the other, none refused. -/
def Reads (g : Grammar W J) (y : Yard W J) (words : List String) (z : Yard W J) : Prop :=
  (readAll g y words).1 = .ok z

theorem reads_nil : Reads g y [] z ↔ y = z := by
  simp [Reads, readAll]

theorem reads_cons {rest : List String} :
    Reads g y (word :: rest) z ↔ ∃ mid, Step g y word mid ∧ Reads g mid rest z := by
  simp only [Reads, readAll]
  constructor
  · intro h
    cases hr : y.read g word with
    | error cause => simp [hr] at h
    | ok mid => exact ⟨mid, read_eq_ok.mp hr, by simpa [hr] using h⟩
  · rintro ⟨mid, hs, h⟩
    simpa [hs.read] using h

theorem reads_append {us vs : List String} :
    Reads g y (us ++ vs) z ↔ ∃ mid, Reads g y us mid ∧ Reads g mid vs z := by
  induction us generalizing y with
  | nil => simp [reads_nil]
  | cons u us ih =>
      simp only [List.cons_append, reads_cons, ih]
      constructor
      · rintro ⟨first, hs, mid, hu, hv⟩
        exact ⟨mid, ⟨first, hs, hu⟩, hv⟩
      · rintro ⟨mid, ⟨first, hs, hu⟩, hv⟩
        exact ⟨first, hs, mid, hu, hv⟩

theorem reads_singleton : Reads g y [word] z ↔ Step g y word z := by
  simp [reads_cons, reads_nil]

theorem Reads.invariant {P : List String → Yard W J → Prop} (start : P [] y)
    (kept : ∀ ws u w v, P ws u → Step g u w v → P (ws ++ [w]) v) (h : Reads g y words z) :
    P words z := by
  suffices hall : ∀ before, P before y → P (before ++ words) z by simpa using hall [] start
  clear start
  induction words generalizing y with
  | nil =>
      obtain rfl := reads_nil.mp h
      simp
  | cons w ws ih =>
      obtain ⟨mid, hs, hr⟩ := reads_cons.mp h
      intro before hb
      simpa using ih hr (before ++ [w]) (kept before y w mid hb hs)

theorem Step.emitted_ne_nil (hs : Step g y word z) (h : y.expecting = false → y.emitted ≠ [])
    (hz : z.expecting = false) : z.emitted ≠ [] := by
  cases hs with
  | value | behind => simp
  | leading | between => cases hz
  | close hy => simp [h hy]

theorem Reads.emitted_ne_nil (h : Reads g {} words z) (hz : z.expecting = false) :
    z.emitted ≠ [] := by
  revert hz
  refine h.invariant (P := fun _ y => y.expecting = false → y.emitted ≠ []) ?_ ?_
  · simp
  · intro ws u w v hu hs
    exact hs.emitted_ne_nil hu

theorem Reads.eq_nil_of_isUntouched (h : Reads g {} words z) (hz : z.isUntouched = true) :
    words = [] := by
  cases hw : words.getLast? with
  | none => simpa using hw
  | some last =>
      obtain ⟨init, rfl⟩ := List.getLast?_eq_some_iff.mp hw
      obtain ⟨u, hu, hl⟩ := reads_append.mp h
      cases reads_singleton.mp hl with
      | close hy => simp [isUntouched, hu.emitted_ne_nil hy] at hz
      | value | leading | behind | between => simp [isUntouched] at hz

theorem finish_eq_ok :
    y.finish = .ok p ↔ (y.expecting = true → y.isUntouched = true) ∧
      (∀ q ∈ y.pending, q.opensGroup = false) ∧
      p = y.emitted.reverse ++ y.pending.map .operation := by
  simp only [finish]
  cases hb : y.expecting && !y.isUntouched with
  | true =>
      have hn : ¬ (y.expecting = true → y.isUntouched = true) := by simpa using hb
      simp [hn]
  | false =>
      have hu : y.expecting = true → y.isUntouched = true := by simpa using hb
      cases hg : y.pending.any (·.opensGroup) with
      | true =>
          have hn : ¬ ∀ q ∈ y.pending, q.opensGroup = false := by simpa using hg
          simp [hn]
      | false =>
          have ho : ∀ q ∈ y.pending, q.opensGroup = false := by simpa using hg
          simp only [Bool.false_eq_true, if_false, Except.ok.injEq]
          exact ⟨fun h => ⟨hu, ho, h.symm⟩, fun h => h.2.2.symm⟩

theorem bind_finish_eq_ok :
    (readAll g {} words).1.bind finish = .ok p ↔ ∃ z, Reads g {} words z ∧ z.finish = .ok p := by
  simp only [Reads]
  cases (readAll g {} words).1 with
  | error cause => simp [Except.bind]
  | ok z => simp [Except.bind]

theorem parse_eq_some :
    (parse g words).1 = .ok (some p) ↔ ∃ z, Reads g {} words z ∧ z.finish = .ok p ∧ p ≠ [] := by
  rw [parse_fst]
  constructor
  · intro h
    cases hb : (readAll g {} words).1.bind finish with
    | error cause => simp [hb, Except.map] at h
    | ok q =>
        obtain ⟨z, hz, hq⟩ := bind_finish_eq_ok.mp hb
        cases q with
        | nil => simp [hb, Except.map] at h
        | cons i q =>
            obtain rfl : i :: q = p := by simpa [hb, Except.map] using h
            exact ⟨z, hz, hq, by simp⟩
  · rintro ⟨z, hz, hq, hne⟩
    simp [bind_finish_eq_ok.mpr ⟨z, hz, hq⟩, Except.map, hne]

theorem parse_eq_some_iff_ready :
    (parse g words).1 = .ok (some p) ↔
      ∃ z, Reads g {} words z ∧ z.expecting = false ∧ (∀ q ∈ z.pending, q.opensGroup = false) ∧
        p = z.emitted.reverse ++ z.pending.map .operation := by
  rw [parse_eq_some]
  constructor
  · rintro ⟨z, hr, hf, hne⟩
    obtain ⟨hu, hg, rfl⟩ := finish_eq_ok.mp hf
    refine ⟨z, hr, ?_, hg, rfl⟩
    cases he : z.expecting with
    | false => rfl
    | true => simp_all [isUntouched]
  · rintro ⟨z, hr, he, hg, rfl⟩
    have hne := hr.emitted_ne_nil he
    exact ⟨z, hr, finish_eq_ok.mpr ⟨by simp [he], hg, rfl⟩, by simp [hne]⟩

theorem parse_eq_none :
    (parse g words).1 = .ok none ↔ ∃ z, Reads g {} words z ∧ z.finish = .ok [] := by
  rw [parse_fst, ← bind_finish_eq_ok]
  cases hb : (readAll g {} words).1.bind finish with
  | error cause => simp [Except.map]
  | ok q => cases q <;> simp [Except.map]

end Yard

end InfixArithmetic

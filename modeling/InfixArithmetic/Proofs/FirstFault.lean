import InfixArithmetic.Proofs.Balance
import InfixArithmetic.Proofs.Enclosure
import InfixArithmetic.Proofs.Groups

/-!
The first fault of a text.  A yard refuses a word for one of four reasons, and then never reads the
words behind it.  Every yard that words lead to can be brought to its end: with a value where an
operand is expected, and with the ends of the groups that are open.  So both ways of reading stop at
the first word that no accepted text continues with.
-/

namespace InfixArithmetic

open Climbing (nestingLimit)
open Grammar (calculator)

/-- More words can make an accepted text of these. -/
def Grammar.Completable (g : Grammar) (words : List String) : Prop :=
  ∃ more p, (Yard.parse g (words ++ more)).1 = .ok (some p)

namespace Yard

variable {g : Grammar} {y z : Yard} {word : String} {words rest left : List String}
  {cause : SyntaxError}

inductive Refusal (g : Grammar) (y : Yard) (word : String) : SyntaxError → Prop
  | operand (hy : y.expecting = true) (hk : g.knows word = true) (hl : g.leading? word = none) :
      Refusal g y word (.unknownLeadingOperation word)
  | value (hy : y.expecting = false) (hv : g.knows word = false) :
      Refusal g y word (.invalidExpression word)
  | operation (hy : y.expecting = false) (hk : g.knows word = true)
      (ht : g.trailing? word = none) : Refusal g y word (.unknownOperation word)
  | stray (hy : y.expecting = false) (hc : g.Closes word) (hg : y.groups = 0) :
      Refusal g y word .unmatchedParentheses

theorem refusal_of_readOperand (hy : y.expecting = true)
    (h : y.readOperand g word = .error cause) : Refusal g y word cause := by
  simp only [readOperand, Grammar.readOperand, Grammar.getLeading] at h
  cases hk : g.knows word with
  | false => simp [hk] at h
  | true =>
      cases hl : g.leading? word with
      | some op => simp [hk, hl, Except.map] at h
      | none =>
          obtain rfl : .unknownLeadingOperation word = cause := by
            simpa [hk, hl, Except.map] using h
          exact .operand hy hk hl

theorem refusal_of_close (hy : y.expecting = false) (hc : g.Closes word)
    (h : y.close = .error cause) : Refusal g y word cause := by
  obtain ⟨inner, kept, hp, hi, -, hflush⟩ := exists_flushWhile (!·.opensGroup) y
  rw [close, hflush] at h
  cases kept with
  | cons group outer => cases h
  | nil =>
      cases h
      have hnone : ∀ p ∈ inner, p.opensGroup = false := by simpa using hi
      exact .stray hy hc (groups_of_append hp hnone)

theorem refusal_of_readOperation (hy : y.expecting = false)
    (h : y.readOperation g word = .error cause) : Refusal g y word cause := by
  simp only [readOperation, Grammar.readOperation, Grammar.getTrailing] at h
  cases hk : g.knows word with
  | false =>
      obtain rfl : .invalidExpression word = cause := by simpa [hk] using h
      exact .value hy hk
  | true =>
      cases ht : g.trailing? word with
      | none =>
          obtain rfl : .unknownOperation word = cause := by simpa [hk, ht] using h
          exact .operation hy hk ht
      | some op =>
          cases hc : op.closesGroup with
          | true => exact refusal_of_close hy ⟨op, ht, hc⟩ (by simpa [hk, ht, hc] using h)
          | false => cases hf : op.form <;> simp [hk, ht, hc, hf] at h

theorem close_of_groups (hg : y.groups = 0) : y.close = .error .unmatchedParentheses := by
  have hnone := groups_eq_zero.mp hg
  have hflush : y.flushWhile (!·.opensGroup) = { y with
      pending := [], emitted := y.pending.reverse.map .operation ++ y.emitted } :=
    flushWhile_append (List.append_nil _).symm (by simpa using hnone) nofun
  simp [close, hflush]

theorem Refusal.read (h : Refusal g y word cause) : y.read g word = .error cause := by
  cases h with
  | operand hy hk hl =>
      simp [Yard.read, hy, readOperand, Grammar.readOperand, Grammar.getLeading, hk, hl, Except.map]
  | value hy hv => simp [Yard.read, hy, readOperation, Grammar.readOperation, hv]
  | operation hy hk ht =>
      simp [Yard.read, hy, readOperation, Grammar.readOperation, Grammar.getTrailing, hk, ht]
  | stray hy hc hg =>
      obtain ⟨op, ht, hclose⟩ := hc
      simp [Yard.read, hy, readOperation, Grammar.readOperation_of_trailing? ht, hclose,
        close_of_groups hg]

theorem read_eq_error : y.read g word = .error cause ↔ Refusal g y word cause := by
  constructor
  · intro h
    cases hy : y.expecting with
    | true => exact refusal_of_readOperand hy (by simpa [Yard.read, hy] using h)
    | false => exact refusal_of_readOperation hy (by simpa [Yard.read, hy] using h)
  · exact Refusal.read

/-- Where climbing leaves off at a refused word: behind it, or in front of one that it only peeked
at. -/
def LeavesOff (cause : SyntaxError) (word : String) (rest left : List String) : Prop :=
  (cause = .unknownLeadingOperation word ∨ cause = .unmatchedParentheses ∧ word = closeGroup) ∧
      left = rest ∨
    (cause = .invalidExpression word ∨ cause = .unknownOperation word) ∧ left = word :: rest

theorem Refusal.leavesOff (h : Refusal g y word cause) :
    LeavesOff cause word rest (y.unread g word rest) := by
  cases h with
  | operand hy => exact .inl ⟨.inl rfl, by simp [unread, hy]⟩
  | value hy hv =>
      exact .inr ⟨.inl rfl, by simp [unread, hy, Grammar.readOperation, hv]⟩
  | operation hy hk ht =>
      exact .inr ⟨.inr rfl,
        by simp [unread, hy, Grammar.readOperation, Grammar.getTrailing, hk, ht]⟩
  | stray hy hc =>
      obtain ⟨op, ht, hclose⟩ := hc
      have hname : word = closeGroup :=
        (Grammar.trailing?_eq_some ht).2.symm.trans (Trailing.closesGroup_iff.mp hclose).2
      exact .inl ⟨.inr ⟨rfl, hname⟩,
        by simp [unread, hy, Grammar.readOperation_of_trailing? ht]⟩

def RefusedAt (g : Grammar) (cause : SyntaxError) (read : List String) (word : String) : Prop :=
  ∃ z, Reads g {} read z ∧ z.read g word = .error cause

def EndsEarly (g : Grammar) (cause : SyntaxError) (words : List String) : Prop :=
  ∃ z, Reads g {} words z ∧ z.finish = .error cause

theorem reads_or_refused (g : Grammar) (y : Yard) (words : List String) :
    (∃ z, Reads g y words z) ∨
      ∃ read word rest z cause, words = read ++ word :: rest ∧ Reads g y read z ∧
        z.read g word = .error cause := by
  induction words generalizing y with
  | nil => exact .inl ⟨y, reads_nil.mpr rfl⟩
  | cons word rest ih =>
      cases hr : y.read g word with
      | error cause => exact .inr ⟨[], word, rest, y, cause, rfl, reads_nil.mpr rfl, hr⟩
      | ok mid =>
          have hs := read_eq_ok.mp hr
          rcases ih mid with ⟨z, hz⟩ | ⟨read, bad, left, z, cause, rfl, hz, hbad⟩
          · exact .inl ⟨z, reads_cons.mpr ⟨mid, hs, hz⟩⟩
          · exact .inr ⟨word :: read, bad, left, z, cause, rfl,
              reads_cons.mpr ⟨mid, hs, hz⟩, hbad⟩

variable {read : List String}

theorem readAll_of_reads (h : Reads g y read z) (rest : List String) :
    readAll g y (read ++ rest) = readAll g z rest := by
  induction read generalizing y with
  | nil =>
      obtain rfl := reads_nil.mp h
      rfl
  | cons word read ih =>
      obtain ⟨mid, hs, hr⟩ := reads_cons.mp h
      exact (readAll_step hs.read _).trans (ih hr)

theorem Reads.readAll (h : Reads g y words z) : readAll g y words = (.ok z, []) := by
  simpa [Yard.readAll] using readAll_of_reads h []

theorem guarded_of_reads (h : Reads g y read z) (rest : List String) :
    (guarded g y (read ++ rest)).1 = .error (.nestingTooDeep nestingLimit) ∨
      z.full = false ∧ guarded g y (read ++ rest) = guarded g z rest := by
  induction read generalizing y with
  | nil =>
      obtain rfl := reads_nil.mp h
      cases hf : y.full with
      | true => exact .inl (by rw [guarded_full hf])
      | false => exact .inr ⟨rfl, rfl⟩
  | cons word read ih =>
      obtain ⟨mid, hs, hr⟩ := reads_cons.mp h
      cases hf : y.full with
      | true => exact .inl (by rw [guarded_full hf])
      | false =>
          rw [List.cons_append, guarded_step hf hs.read]
          exact ih hr

theorem parse_of_refused (h : RefusedAt g cause read word) (rest : List String) :
    parse g (read ++ word :: rest) = (.error cause, rest) := by
  obtain ⟨z, hr, hbad⟩ := h
  simp [parse, readAll_of_reads hr, readAll, hbad]

theorem parse_of_endsEarly (h : EndsEarly g cause words) : parse g words = (.error cause, []) := by
  obtain ⟨z, hr, hend⟩ := h
  simp [parse, hr.readAll, hend, Except.map]

theorem parse_eq_error (h : parse g words = (.error cause, rest)) :
    (∃ read word, words = read ++ word :: rest ∧ RefusedAt g cause read word) ∨
      rest = [] ∧ EndsEarly g cause words := by
  rcases reads_or_refused g {} words with ⟨z, hr⟩ | ⟨read, word, left, z, found, rfl, hr, hbad⟩
  · cases hend : z.finish with
    | error found =>
        obtain ⟨⟩ := (parse_of_endsEarly ⟨z, hr, hend⟩).symm.trans h
        exact .inr ⟨rfl, z, hr, hend⟩
    | ok p =>
        simp [parse, hr.readAll, hend, Except.map] at h
  · obtain ⟨⟩ := (parse_of_refused ⟨z, hr, hbad⟩ left).symm.trans h
    exact .inl ⟨read, word, rfl, z, hr, hbad⟩

theorem guarded_eq_error (h : guarded g {} words = (.error cause, left)) :
    cause = .nestingTooDeep nestingLimit ∨
      (∃ read word rest, words = read ++ word :: rest ∧ RefusedAt g cause read word ∧
        LeavesOff cause word rest left) ∨
      left = [] ∧ EndsEarly g cause words := by
  have hdeep (hd : (guarded g {} words).1 = .error (.nestingTooDeep nestingLimit)) :
      cause = .nestingTooDeep nestingLimit := by
    simpa [h] using hd
  rcases reads_or_refused g {} words with ⟨z, hr⟩ | ⟨read, word, rest, z, found, rfl, hr, hbad⟩
  · rcases guarded_of_reads hr [] with hd | ⟨hf, hz⟩
    · exact .inl (hdeep (by simpa using hd))
    · rw [List.append_nil, h, guarded_nil hf] at hz
      obtain ⟨hend, rfl⟩ := Prod.mk.inj hz
      exact .inr (.inr ⟨rfl, z, hr, hend.symm⟩)
  · rcases guarded_of_reads hr (word :: rest) with hd | ⟨hf, hz⟩
    · exact .inl (hdeep hd)
    · rw [h, guarded_refused hf hbad] at hz
      obtain ⟨⟩ := hz
      have hbad' := read_eq_error.mp hbad
      exact .inr (.inl ⟨read, word, rest, rfl, ⟨z, hr, hbad⟩, hbad'.leavesOff⟩)

theorem finish_eq_error (h : z.finish = .error cause) :
    cause = .unexpectedEnd ∨ cause = .unmatchedParentheses := by
  simp only [finish] at h
  split at h
  · exact .inl (Except.error.inj h).symm
  · split at h
    · exact .inr (Except.error.inj h).symm
    · cases h

theorem exists_ready (g : Grammar) (z : Yard) :
    ∃ words z', Reads g z words z' ∧ z'.expecting = false := by
  cases he : z.expecting with
  | false => exact ⟨[], z, reads_nil.mpr rfl, he⟩
  | true =>
      obtain ⟨word, hv⟩ := g.exists_unknown
      exact ⟨[word], _, reads_singleton.mpr (.value he hv), rfl⟩

theorem Reads.completable (hc : g.Closes closeGroup) (h : Reads g {} words z) :
    g.Completable words := by
  -- An operand if one is expected, then the ends of all open groups.
  obtain ⟨operand, y, hy, hready⟩ := exists_ready g z
  obtain ⟨z', hends, hready', hgroups⟩ := passes_closes hready hc rfl (Nat.le_refl y.enclosing)
  have hall := reads_append.mpr ⟨z, h, reads_append.mpr ⟨y, hy, hends.reads⟩⟩
  exact ⟨_, parse_of_ready hall hready' hgroups⟩

theorem RefusedAt.not_completable (h : RefusedAt g cause read word) :
    ¬ g.Completable (read ++ [word]) := by
  rintro ⟨more, p, hp⟩
  rw [List.append_assoc, List.singleton_append, parse_of_refused h more] at hp
  cases hp

end Yard

theorem errors_come_at_the_first_fault (words : List String) :
    (∀ cause rest, Yard.parse calculator words = (.error cause, rest) →
      (∃ read word, words = read ++ word :: rest ∧ Yard.RefusedAt calculator cause read word ∧
        calculator.Completable read ∧ ¬ calculator.Completable (read ++ [word])) ∨
      rest = [] ∧ Yard.EndsEarly calculator cause words ∧
        (cause = .unexpectedEnd ∨ cause = .unmatchedParentheses) ∧
        calculator.Completable words) ∧
    ∀ cause after, Climbing.parse calculator { words } = (.error cause, after) →
      cause = .nestingTooDeep nestingLimit ∨
      ∃ rest, Yard.parse calculator words = (.error cause, rest) ∧
        ((∃ read word, words = read ++ word :: rest ∧ Yard.RefusedAt calculator cause read word ∧
            Yard.LeavesOff cause word rest after.words) ∨
          rest = [] ∧ after.words = [] ∧ Yard.EndsEarly calculator cause words) := by
  refine ⟨?_, ?_⟩
  · intro cause rest h
    rcases Yard.parse_eq_error h with ⟨read, word, hw, hbad⟩ | ⟨hrest, hend⟩
    · obtain ⟨z, hr, -⟩ := id hbad
      exact .inl ⟨read, word, hw, hbad, hr.completable closes_calculator, hbad.not_completable⟩
    · obtain ⟨z, hr, hf⟩ := id hend
      exact .inr ⟨hrest, hend, Yard.finish_eq_error hf, hr.completable closes_calculator⟩
  · intro cause after h
    have hguard := guarded_of_parse aligned_calculator words
    rw [h] at hguard
    rcases Yard.guarded_eq_error hguard with
      hdeep | ⟨read, word, rest, rfl, hbad, hleft⟩ | ⟨hleft, hend⟩
    · exact .inl hdeep
    · exact .inr ⟨rest, Yard.parse_of_refused hbad rest, .inl ⟨read, word, rfl, hbad, hleft⟩⟩
    · exact .inr ⟨[], Yard.parse_of_endsEarly hend, .inr ⟨rfl, hleft, hend⟩⟩

end InfixArithmetic

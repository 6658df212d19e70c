import InfixArithmetic.Proofs.Nesting
import InfixArithmetic.Proofs.SquareWords
import InfixArithmetic.Proofs.Squares

/-!
Reading squares as powers of two.  A square is complete on the spot, a power only once its two is,
so what comes next must not take the two for itself, as another square, a power or a factorial does.
Otherwise the words of both spellings are read alike, but for the power that is pending meanwhile.
-/

namespace InfixArithmetic

open Grammar (calculator)
open Text (spellSquare)

def SyntaxError.spellSquares : SyntaxError → SyntaxError
  | .unknownLeadingOperation word => .unknownLeadingOperation (if word = "**" then "^" else word)
  | cause => cause

def respell {α β : Type} (f : α → β) : Except SyntaxError α → Except SyntaxError β
  | .error cause => .error cause.spellSquares
  | .ok x => .ok (f x)

/-- Behind a power of two, these words would take the two as their operand. -/
def takesTwo (word : String) : Bool :=
  word = "**" || word = "^" || word = "!"

def squaresAlone : List String → Bool
  | [] | [_] => true
  | word :: next :: rest => !(word = "**" && takesTwo next) && squaresAlone (next :: rest)

theorem squaresAlone_tail {word : String} {rest : List String}
    (h : squaresAlone (word :: rest) = true) : squaresAlone rest = true := by
  cases rest with
  | nil => rfl
  | cons next rest =>
      simp only [squaresAlone, Bool.and_eq_true] at h
      exact h.2

theorem flatMap_spellSquare_square (rest : List String) :
    ("**" :: rest).flatMap spellSquare = "^" :: "2" :: rest.flatMap spellSquare := rfl

theorem flatMap_spellSquare_of_ne {word : String} (h : word ≠ "**") (rest : List String) :
    (word :: rest).flatMap spellSquare = word :: rest.flatMap spellSquare := by
  simp [spellSquare, h]

theorem takesTwo_spelled {rest : List String} (h : squaresAlone ("**" :: rest) = true) :
    ∀ w, (rest.flatMap spellSquare).head? = some w → takesTwo w = false := by
  cases rest with
  | nil => simp
  | cons next rest =>
      have hn : takesTwo next = false := by
        simp only [squaresAlone, Bool.and_eq_true] at h
        simpa using h.1
      have hne : next ≠ "**" := by
        rintro rfl
        exact absurd hn (by decide)
      simpa [flatMap_spellSquare_of_ne hne] using hn

theorem SyntaxError.spellSquares_of_readOperand {g : Grammar} {word : String} (h : word ≠ "**")
    {cause : SyntaxError} (hr : g.readOperand word = .error cause) :
    cause.spellSquares = cause := by
  simp only [Grammar.readOperand, Grammar.getLeading] at hr
  split at hr
  · cases hl : g.leading? word <;> simp [hl, Except.map] at hr
    rw [← hr]
    simp [spellSquares, h]
  · cases hr

theorem SyntaxError.spellSquares_of_readOperation {g : Grammar} {word : String}
    {cause : SyntaxError} (hr : g.readOperation word = .error cause) :
    cause.spellSquares = cause := by
  simp only [Grammar.readOperation, Grammar.getTrailing] at hr
  split at hr
  · cases ht : g.trailing? word <;> simp [ht] at hr
    rw [← hr]
    rfl
  · cases hr
    rfl

theorem Grammar.squares_of_pends {g : Grammar} {p : Operation} (h : g.Pends p) :
    p.squares = false := by
  cases p with
  | leading => rfl
  | trailing op =>
      obtain ⟨_, a, f, hf⟩ := h
      simp [Operation.squares, hf]

theorem name_of_squares :
    ∀ op ∈ calculator.trailing, (Operation.trailing op).squares = true → op.name = "**" := by
  decide

theorem closesGroup_or_yieldsTo :
    ∀ op ∈ calculator.trailing, takesTwo op.name = false →
      op.closesGroup = true ∨ (Operation.trailing caret).yieldsTo op = true := by
  decide

namespace Yard

variable {y z : Yard} {word : String} {words : List String}

def spellSquares (y : Yard) : Yard :=
  { y with emitted := (Program.spellSquares y.emitted.reverse).reverse }

theorem push_spellSquares (y : Yard) (op : Operation) :
    (y.push op).spellSquares = y.spellSquares.push op := rfl

theorem emit_spellSquares {i : Instruction} (hi : i.spellSquares = [i]) :
    (y.emit i).spellSquares = y.spellSquares.emit i := by
  have hs : Program.spellSquares [i] = [i] := by simpa [Program.spellSquares] using hi
  simp [spellSquares, emit, Program.spellSquares_append, hs]

theorem flushWhile_spellSquares {g : Grammar} (hy : y.Waits g) (leaves : Operation → Bool) :
    y.spellSquares.flushWhile leaves = (y.flushWhile leaves).spellSquares := by
  have hops : ∀ op ∈ y.pending.takeWhile leaves, op.squares = false := by
    intro op hop
    exact Grammar.squares_of_pends (hy op ((List.takeWhile_sublist leaves).subset hop))
  simp [spellSquares, flushWhile, Program.spellSquares_append,
    Program.spellSquares_operations hops, ← List.map_reverse]

theorem close_spellSquares {g : Grammar} (hy : y.Waits g) :
    y.spellSquares.close = respell spellSquares y.close := by
  rw [close, flushWhile_spellSquares hy, close]
  cases hp : (y.flushWhile (!·.opensGroup)).pending <;>
    simp [spellSquares, hp, respell, SyntaxError.spellSquares]

theorem finish_spellSquares {g : Grammar} (hy : y.Waits g) :
    y.spellSquares.finish = respell Program.spellSquares y.finish := by
  have hops : ∀ op ∈ y.pending, op.squares = false := fun op hop =>
    Grammar.squares_of_pends (hy op hop)
  have hu : y.spellSquares.isUntouched = y.isUntouched := by
    rw [Bool.eq_iff_iff]
    simp [isUntouched, spellSquares, Program.spellSquares_eq_nil]
  have he : y.spellSquares.expecting = y.expecting := rfl
  have hp : y.spellSquares.pending = y.pending := rfl
  simp only [finish, hu, he, hp]
  cases y.expecting && !y.isUntouched with
  | true => rfl
  | false =>
      cases y.pending.any (·.opensGroup) with
      | true => rfl
      | false =>
          simp [spellSquares, respell, Program.spellSquares_append,
            Program.spellSquares_operations hops]

theorem readOperand_spellSquares (hw : word ≠ "**") :
    y.spellSquares.readOperand calculator word =
      respell spellSquares (y.readOperand calculator word) := by
  simp only [readOperand]
  cases hr : calculator.readOperand word with
  | error cause => simp [respell, SyntaxError.spellSquares_of_readOperand hw hr]
  | ok found =>
      cases found with
      | none => simp [respell, spellSquares, emit, Program.spellSquares, Instruction.spellSquares]
      | some op => rfl

theorem readOperation_spellSquares (hy : y.Waits calculator) (hw : word ≠ "**") :
    y.spellSquares.readOperation calculator word =
      respell spellSquares (y.readOperation calculator word) := by
  simp only [readOperation]
  cases hr : calculator.readOperation word with
  | error cause => simp [respell, SyntaxError.spellSquares_of_readOperation hr]
  | ok op =>
      obtain ⟨hm, hn⟩ := Grammar.readOperation_eq_ok hr
      have hi : Instruction.spellSquares (.operation (.trailing op)) =
          [.operation (.trailing op)] := by
        have hs := name_of_squares op hm
        simp_all [Instruction.spellSquares]
      cases hc : op.closesGroup with
      | true => simpa [hc] using close_spellSquares hy
      | false =>
          cases hf : op.form with
          | between a f => simp [hc, hf, flushWhile_spellSquares hy, push_spellSquares, respell]
          | behind wrap =>
              simp [hc, hf, flushWhile_spellSquares hy, emit_spellSquares hi, respell]

theorem read_spellSquares (hy : y.Waits calculator) (hw : word ≠ "**") :
    y.spellSquares.read calculator word = respell spellSquares (y.read calculator word) := by
  have he : y.spellSquares.expecting = y.expecting := rfl
  cases h : y.expecting with
  | true => simpa [read, he, h] using readOperand_spellSquares hw
  | false => simpa [read, he, h] using readOperation_spellSquares hy hw

/-- What has been read when the two of a power is behind it, but the power is pending still. -/
def owePower (y : Yard) : Yard :=
  { y with pending := .trailing caret :: y.pending }

def payPower (y : Yard) : Yard :=
  y.emit (.operation (.trailing caret))

theorem flushWhile_owePower {leaves : Operation → Bool} (h : leaves (.trailing caret) = true) :
    y.owePower.flushWhile leaves = y.payPower.flushWhile leaves := by
  simp [owePower, payPower, flushWhile, emit, h]

theorem close_owePower : y.owePower.close = y.payPower.close := by
  rw [close, flushWhile_owePower rfl, close]

theorem read_owePower (he : y.expecting = false) (hw : takesTwo word = false) :
    y.owePower.read calculator word = y.payPower.read calculator word := by
  have ho : y.owePower.expecting = false := he
  have hp : y.payPower.expecting = false := he
  simp only [read, ho, hp, readOperation, Bool.false_eq_true, if_false]
  cases hr : calculator.readOperation word with
  | error cause => rfl
  | ok op =>
      obtain ⟨hm, rfl⟩ := Grammar.readOperation_eq_ok hr
      rcases closesGroup_or_yieldsTo op hm hw with hc | hl
      · simp only [hc, if_true, close_owePower]
      · have hflush : y.owePower.flushWhile (·.yieldsTo op) =
            y.payPower.flushWhile (·.yieldsTo op) :=
          flushWhile_owePower hl
        simp only [hflush, close_owePower]

theorem finish_owePower (he : y.expecting = false) : y.owePower.finish = y.payPower.finish := by
  simp [finish, owePower, payPower, emit, he, Operation.opensGroup]

theorem read_square_refused (he : y.expecting = true) :
    y.read calculator "**" = .error (.unknownLeadingOperation "**") := by
  have hr : calculator.readOperand "**" = .error (.unknownLeadingOperation "**") := rfl
  exact read_operand_error he hr

theorem read_caret_refused (he : y.expecting = true) :
    y.read calculator "^" = .error (.unknownLeadingOperation "^") := by
  have hr : calculator.readOperand "^" = .error (.unknownLeadingOperation "^") := rfl
  exact read_operand_error he hr

theorem step_square (he : y.expecting = false) (hy : y.Waits calculator) :
    ∃ z mid owing : Yard, Step calculator y "**" z ∧ Step calculator y.spellSquares "^" mid ∧
      Step calculator mid "2" owing.owePower ∧ owing.payPower = z.spellSquares ∧
      owing.expecting = false := by
  have hs : y.spellSquares.expecting = false := he
  have hsquare := Grammar.readOperation_of_trailing? trailing?_squaring
  have hcaret := Grammar.readOperation_of_trailing? trailing?_caret
  have htwo : calculator.readOperand "2" = .ok none := rfl
  have hflush := flushWhile_spellSquares hy (·.yieldsTo caret)
  refine ⟨(y.flushWhile (·.yieldsTo squaring)).emit (.operation (.trailing squaring)),
    (y.flushWhile (·.yieldsTo caret)).spellSquares.push (.trailing caret),
    (y.flushWhile (·.yieldsTo caret)).spellSquares.emit (.value "2"), ?_, ?_, ?_, ?_, he⟩
  · refine read_eq_ok.mp ?_
    simp only [read, he, readOperation, hsquare, Bool.false_eq_true, if_false]
    rfl
  · refine read_eq_ok.mp ?_
    simp only [read, hs, readOperation, hcaret, hflush, Bool.false_eq_true, if_false]
    rfl
  · refine read_eq_ok.mp ?_
    simp [read, push, readOperand, htwo, emit, owePower, spellSquares, flushWhile, he]
  · have hspell : Program.spellSquares [.operation (.trailing squaring)] =
        [.value "2", .operation (.trailing caret)] := rfl
    have hyields : (fun p : Operation => p.yieldsTo squaring) = fun p => p.yieldsTo caret := rfl
    simp [payPower, emit, spellSquares, Program.spellSquares_append, hspell, hyields]

def run (g : Grammar) (y : Yard) (words : List String) : Except SyntaxError Program :=
  (readAll g y words).1.bind finish

theorem run_cons (g : Grammar) (y : Yard) (word : String) (rest : List String) :
    y.run g (word :: rest) = (y.read g word).bind fun z => z.run g rest := by
  simp only [run, readAll]
  cases y.read g word <;> rfl

theorem Step.run {g : Grammar} (hs : Step g y word z) (rest : List String) :
    y.run g (word :: rest) = z.run g rest := by
  rw [run_cons, hs.read]
  rfl

theorem run_owePower (he : y.expecting = false)
    (hw : ∀ w, words.head? = some w → takesTwo w = false) :
    y.owePower.run calculator words = y.payPower.run calculator words := by
  cases words with
  | nil => exact finish_owePower he
  | cons word rest => rw [run_cons, run_cons, read_owePower he (hw word rfl)]

theorem run_spellSquares (hy : y.Waits calculator) (ha : squaresAlone words = true) :
    y.spellSquares.run calculator (words.flatMap spellSquare) =
      respell Program.spellSquares (y.run calculator words) := by
  induction words generalizing y with
  | nil => exact finish_spellSquares hy
  | cons word rest ih =>
      have hrest := squaresAlone_tail ha
      by_cases hw : word = "**"
      · subst hw
        rw [flatMap_spellSquare_square]
        cases he : y.expecting with
        | true =>
            have hs : y.spellSquares.expecting = true := he
            rw [run_cons, run_cons, read_square_refused he, read_caret_refused hs]
            rfl
        | false =>
            -- The next word makes the yard pay the power, which leaves what the square has left.
            obtain ⟨z, mid, owing, hz, hm, ho, hp, hoe⟩ := step_square he hy
            rw [hz.run, hm.run, ho.run, run_owePower hoe (takesTwo_spelled ha), hp]
            exact ih (hz.waits hy) hrest
      · rw [flatMap_spellSquare_of_ne hw, run_cons, run_cons, read_spellSquares hy hw]
        cases hr : y.read calculator word with
        | error cause => rfl
        | ok z => exact ih ((read_eq_ok.mp hr).waits hy) hrest

theorem Step.spellSquares (hy : y.Waits calculator) (hw : word ≠ "**")
    (hs : Step calculator y word z) : Step calculator y.spellSquares word z.spellSquares := by
  refine read_eq_ok.mp ?_
  rw [read_spellSquares hy hw, hs.read]
  rfl

theorem Step.of_spellSquares (hy : y.Waits calculator) (hw : word ≠ "**")
    (hs : Step calculator y.spellSquares word z) :
    ∃ u, Step calculator y word u ∧ u.spellSquares = z := by
  have hread := hs.read
  rw [read_spellSquares hy hw] at hread
  cases hr : y.read calculator word with
  | error cause =>
      rw [hr] at hread
      cases hread
  | ok u => exact ⟨u, read_eq_ok.mp hr, by simpa [hr, respell] using hread⟩

theorem Step.expecting_square (hs : Step calculator y "**" z) : y.expecting = false := by
  cases he : y.expecting with
  | true => cases (read_square_refused he).symm.trans hs.read
  | false => rfl

theorem Step.expecting_caret (hs : Step calculator y "^" z) : y.expecting = false := by
  cases he : y.expecting with
  | true => cases (read_caret_refused he).symm.trans hs.read
  | false => rfl

theorem Reaches.owePower {limit : Nat} (he : y.expecting = false)
    (hw : ∀ w, words.head? = some w → takesTwo w = false)
    (h : y.payPower.Reaches calculator limit words) :
    y.owePower.Reaches calculator limit words := by
  have hlen : y.payPower.pending.length ≤ y.owePower.pending.length :=
    Nat.le_succ y.pending.length
  cases words with
  | nil => exact reaches_nil.mpr (Nat.le_trans (reaches_nil.mp h) hlen)
  | cons word rest =>
      refine reaches_cons.mpr ?_
      rcases reaches_cons.mp h with hl | ⟨mid, hs, hr⟩
      · exact Or.inl (Nat.le_trans hl hlen)
      · refine Or.inr ⟨mid, read_eq_ok.mp ?_, hr⟩
        rw [read_owePower he (hw word rfl), hs.read]

theorem Reaches.spellSquares {limit : Nat} (hy : y.Waits calculator)
    (ha : squaresAlone words = true) (h : y.Reaches calculator limit words) :
    y.spellSquares.Reaches calculator limit (words.flatMap spellSquare) := by
  induction words generalizing y with
  | nil => exact reaches_of_le (show limit ≤ y.pending.length from reaches_nil.mp h)
  | cons word rest ih =>
      have hrest := squaresAlone_tail ha
      rcases reaches_cons.mp h with hl | ⟨z, hz, hr⟩
      · exact reaches_of_le hl
      · have hspelled := ih (hz.waits hy) hrest hr
        by_cases hw : word = "**"
        · subst hw
          obtain ⟨z', mid, owing, hz', hm, ho, hp, hoe⟩ := step_square hz.expecting_square hy
          obtain rfl : z' = z := Except.ok.inj (hz'.read.symm.trans hz.read)
          refine reaches_cons.mpr (Or.inr ⟨mid, hm, reaches_cons.mpr (Or.inr ⟨_, ho, ?_⟩)⟩)
          exact Reaches.owePower hoe (takesTwo_spelled ha) (hp ▸ hspelled)
        · rw [flatMap_spellSquare_of_ne hw]
          exact reaches_cons.mpr (Or.inr ⟨z.spellSquares, hz.spellSquares hy hw, hspelled⟩)

theorem Step.length_le_succ {g : Grammar} (hs : Step g y word z) :
    z.pending.length ≤ y.pending.length + 1 := by
  cases hs with
  | value => exact Nat.le_succ _
  | leading => exact Nat.le_refl _
  | behind _ _ _ _ hp => simp [hp]; omega
  | between _ _ _ hp => simp [hp]
  | close _ _ _ hp => simp [hp]; omega

theorem Reaches.of_owePower {limit : Nat} (he : y.expecting = false)
    (hw : ∀ w, words.head? = some w → takesTwo w = false)
    (h : y.owePower.Reaches calculator limit words) :
    limit ≤ y.pending.length + 1 ∨ y.payPower.Reaches calculator limit words := by
  cases words with
  | nil => exact Or.inl (reaches_nil.mp h)
  | cons word rest =>
      rcases reaches_cons.mp h with hl | ⟨mid, hs, hr⟩
      · exact Or.inl hl
      · refine Or.inr (reaches_cons.mpr (Or.inr ⟨mid, read_eq_ok.mp ?_, hr⟩))
        rw [← read_owePower he (hw word rfl), hs.read]

theorem Reaches.of_spellSquares {limit : Nat} (hy : y.Waits calculator)
    (ha : squaresAlone words = true)
    (h : y.spellSquares.Reaches calculator (limit + 1) (words.flatMap spellSquare)) :
    y.Reaches calculator limit words := by
  induction words generalizing y with
  | nil =>
      have hl : limit + 1 ≤ y.spellSquares.pending.length := reaches_nil.mp h
      exact reaches_of_le (Nat.le_of_succ_le hl)
  | cons word rest ih =>
      have hrest := squaresAlone_tail ha
      by_cases hw : word = "**"
      · subst hw
        rw [flatMap_spellSquare_square] at h
        rcases reaches_cons.mp h with hl | ⟨mid, hm, h⟩
        · exact reaches_of_le (Nat.le_of_succ_le hl)
        have hlen : mid.pending.length ≤ y.pending.length + 1 := hm.length_le_succ
        rcases reaches_cons.mp h with hl | ⟨owed, ho, h⟩
        · exact reaches_of_le (by omega)
        have he : y.expecting = false := hm.expecting_caret
        obtain ⟨z, mid', owing, hz, hm', ho', hp, hoe⟩ := step_square he hy
        obtain rfl : mid' = mid := Except.ok.inj (hm'.read.symm.trans hm.read)
        obtain rfl := Except.ok.inj (ho'.read.symm.trans ho.read)
        refine reaches_cons.mpr (Or.inr ⟨z, hz, ?_⟩)
        rcases h.of_owePower hoe (takesTwo_spelled ha) with hl | hpaid
        · have hpend : owing.payPower.pending = z.spellSquares.pending := by rw [hp]
          change owing.pending = z.pending at hpend
          rw [hpend] at hl
          exact reaches_of_le (by omega)
        · exact ih (hz.waits hy) hrest (hp ▸ hpaid)
      · rw [flatMap_spellSquare_of_ne hw] at h
        rcases reaches_cons.mp h with hl | ⟨mid, hs, h⟩
        · exact reaches_of_le (Nat.le_of_succ_le hl)
        obtain ⟨z, hz, rfl⟩ := hs.of_spellSquares hy hw
        exact reaches_cons.mpr (Or.inr ⟨z, hz, ih (hz.waits hy) hrest h⟩)

end Yard

end InfixArithmetic

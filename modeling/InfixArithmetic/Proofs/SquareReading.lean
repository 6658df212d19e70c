import InfixArithmetic.Proofs.Assembly
import InfixArithmetic.Proofs.SquareSteps

/-!
Texts with squares.  Their words are read with a power of two for each square, in both modes, and
come to the same values and errors as with the squares themselves, where nothing takes the two away.
-/

namespace InfixArithmetic

open Climbing (nestingLimit)
open Grammar (calculator)
open Text (spellSquare)

inductive Agrees (g : Grammar) :
    Except SyntaxError (Option Expression) → Except SyntaxError (Option Program) → Prop
  | error (cause : SyntaxError) : Agrees g (.error cause) (.error cause)
  | none : Agrees g (.ok none) (.ok none)
  | some {e : Expression} {p : Program} (h : Postfix g e p) (he : e.programFree = true) :
      Agrees g (.ok (some e)) (.ok (some p))

theorem agrees_of_climbing {g : Grammar} (hg : g.Aligned) {words : List String}
    (hn : (Climbing.parse g { words }).1 ≠ .error (.nestingTooDeep nestingLimit)) :
    Agrees g (Climbing.parse g { words }).1 (Yard.parse g words).1 := by
  cases h : (Climbing.parse g { words }).1 with
  | error cause =>
      rcases yard_of_climbing_error hg h with rfl | hy
      · exact absurd h hn
      · rw [hy]
        exact .error cause
  | ok found =>
      cases found with
      | none =>
          rw [yard_of_climbing_none hg h]
          exact .none
      | some e =>
          obtain ⟨he, p, hp, hy⟩ := yard_of_climbing_some hg h
          rw [hy]
          exact .some hp he

namespace Agrees

variable {r r' : Except SyntaxError (Option Expression)} {q : Except SyntaxError (Option Program)}

theorem unique {g : Grammar} (h : Agrees g r q) (h' : Agrees g r' q) : r = r' := by
  cases h with
  | error | none => cases h' ; rfl
  | some hp he =>
      cases h' with
      | some hp' he' => rw [hp.unique hp' he he']

theorem spellSquares (h : Agrees calculator r q) :
    Agrees calculator (respell (Option.map Expression.spellSquares) r)
      (respell (Option.map Program.spellSquares) q) := by
  cases h with
  | error cause => exact .error cause.spellSquares
  | none => exact .none
  | some hp he => exact .some hp.spellSquares (by rw [Expression.programFree_spellSquares, he])

end Agrees

section

variable {words : List String} (ha : squaresAlone words = true)

include ha

theorem yard_spellSquares :
    (Yard.parse calculator (words.flatMap spellSquare)).1 =
      respell (Option.map Program.spellSquares) (Yard.parse calculator words).1 := by
  have hrun := Yard.run_spellSquares (y := {}) (by simp [Yard.Waits]) ha
  simp only [Yard.parse_fst]
  change Except.map _ (Yard.run calculator (Yard.spellSquares {}) _) =
    respell _ (Except.map _ (Yard.run calculator {} words))
  rw [hrun]
  cases Yard.run calculator {} words with
  | error cause => rfl
  | ok p => cases p <;> simp [respell, Except.map, Program.spellSquares_eq_nil]

theorem climbing_spellSquares :
    (Yard.Reaches calculator (nestingLimit - 1) {} words ∧
      (Climbing.parse calculator { words := words.flatMap spellSquare }).1 =
        .error (.nestingTooDeep nestingLimit)) ∨
      (Climbing.parse calculator { words := words.flatMap spellSquare }).1 =
        respell (Option.map Expression.spellSquares) (Climbing.parse calculator { words }).1 := by
  have hstart : Yard.Waits calculator {} := by simp [Yard.Waits]
  by_cases hn : (Climbing.parse calculator { words := words.flatMap spellSquare }).1 =
      .error (.nestingTooDeep nestingLimit)
  · obtain ⟨_, hr⟩ := (climbing_tooDeep_iff aligned_calculator).mp hn
    exact Or.inl ⟨Yard.Reaches.of_spellSquares hstart ha hr, hn⟩
  · right
    have hw : (Climbing.parse calculator { words }).1 ≠ .error (.nestingTooDeep nestingLimit) := by
      intro h
      obtain ⟨_, hr⟩ := (climbing_tooDeep_iff aligned_calculator).mp h
      exact hn ((climbing_tooDeep_iff aligned_calculator).mpr ⟨rfl, hr.spellSquares hstart ha⟩)
    have hspelled := agrees_of_climbing aligned_calculator hn
    rw [yard_spellSquares ha] at hspelled
    exact hspelled.unique (agrees_of_climbing aligned_calculator hw).spellSquares

end

theorem outcomeBy_spellSquares {power : Float → Float → Float} (hpower : ∀ x, power x 2.0 = x * x)
    (r : Except SyntaxError (Option Expression)) :
    outcomeBy power (respell (Option.map Expression.spellSquares) r) =
      outcomeBy power (respell id r) := by
  cases r with
  | error cause => rfl
  | ok found =>
      cases found with
      | none => rfl
      | some e => simp [respell, outcomeBy, Expression.evaluateBy_spellSquares hpower]

def readWithSquares (mode : Mode) (text : String) : Except SyntaxError (Option Expression) :=
  (mode.parse calculator { words := Text.squareWords text }).1

theorem parse_spellSquares {text : String} (hends : Text.squaresEndWords text.toList = true)
    (halone : squaresAlone (Text.squareWords text) = true) (mode : Mode) :
    (mode = .normal ∧ Yard.Reaches calculator (nestingLimit - 1) {} (Text.squareWords text) ∧
        parse calculator mode text = .error (.nestingTooDeep nestingLimit)) ∨
      parse calculator mode text =
        respell (Option.map Expression.spellSquares) (readWithSquares mode text) := by
  simp only [parse, readWithSquares, Mode.parse, Text.words_normalize_squares hends]
  cases mode with
  | normal => simpa using climbing_spellSquares halone
  | rpn =>
      right
      simp only [yard_spellSquares halone]
      cases (Yard.parse calculator (Text.squareWords text)).1 with
      | error cause => rfl
      | ok found => cases found <;> rfl

def repeatedly (x : Float) : Nat → Float
  | 0 => 1.0
  | 1 => x
  | n + 2 => repeatedly x (n + 1) * x

def wholePower (x y : Float) : Float :=
  match (Binary64.ofFloat y).natural? with
  | some n => repeatedly x n
  | none => x.pow y

theorem wholePower_two (x : Float) : wholePower x 2.0 = x * x := by
  have h : (Binary64.ofFloat 2.0).natural? = some 2 := by decide
  simp [wholePower, h, repeatedly]

instance : DecidableEq (Except Failure (Option Float))
  | .error cause, .error other => decidable_of_iff (cause = other) (by simp)
  | .ok x, .ok y => decidable_of_iff (x = y) (by simp)
  | .error _, .ok _ => isFalse (by simp)
  | .ok _, .error _ => isFalse (by simp)

theorem squares_keep_their_meaning {text : String}
    (hends : Text.squaresEndWords text.toList = true)
    (halone : squaresAlone (Text.squareWords text) = true) (mode : Mode) :
    evaluate calculator mode text = outcomeBy Float.pow (parse calculator mode text) ∧
    ((mode = .normal ∧ Yard.Reaches calculator (nestingLimit - 1) {} (Text.squareWords text) ∧
        parse calculator mode text = .error (.nestingTooDeep nestingLimit)) ∨
      (parse calculator mode text =
          respell (Option.map Expression.spellSquares) (readWithSquares mode text) ∧
        ∀ power, (∀ x, power x 2.0 = x * x) →
          outcomeBy power (parse calculator mode text) =
            outcomeBy power (respell id (readWithSquares mode text)))) := by
  refine ⟨(outcomeBy_pow calculator mode text).symm, ?_⟩
  rcases parse_spellSquares hends halone mode with h | h
  · exact Or.inl h
  · refine Or.inr ⟨h, ?_⟩
    intro power hpower
    rw [h, outcomeBy_spellSquares hpower]

theorem squares_keep_their_meaning_group :
    Text.squaresEndWords "2*(1+3)**-4".toList = true ∧
      squaresAlone (Text.squareWords "2*(1+3)**-4") = true ∧
      ∀ mode, outcomeBy wholePower (parse calculator mode "2*(1+3)**-4") = .ok (some 28.0) := by
  have hends : Text.squaresEndWords "2*(1+3)**-4".toList = true := by decide
  have halone : squaresAlone (Text.squareWords "2*(1+3)**-4") = true := by decide
  refine ⟨hends, halone, ?_⟩
  intro mode
  obtain ⟨_, ⟨rfl, _, hdeep⟩ | ⟨_, hvalue⟩⟩ := squares_keep_their_meaning hends halone mode
  · have hread : (parse calculator .normal "2*(1+3)**-4").toBool = true := by decide +kernel
    rw [hdeep] at hread
    cases hread
  · rw [hvalue wholePower wholePower_two]
    cases mode <;> decide +kernel

def KeepsSquares (mode : Mode) (text : String) : Prop :=
  ∀ power, (∀ x, power x 2.0 = x * x) →
    outcomeBy power (parse calculator mode text) = outcomeBy power (readWithSquares mode text)

def signedSquare (signs : Nat) : String :=
  String.ofList (List.replicate signs '-' ++ ['1', '*', '*'])

theorem squareWords_signedSquare (signs : Nat) :
    Text.squareWords (signedSquare signs) = List.replicate signs "-" ++ ["1", "**"] := by
  have hruns : Text.runs (Text.setSquaresApart (List.replicate signs '-' ++ ['1', '*', '*'])) =
      List.replicate signs ['-'] ++ [['1'], ['*', '*']] := by
    induction signs with
    | zero => decide
    | succ signs ih =>
        rw [List.replicate_succ, List.cons_append, Text.setSquaresApart_cons (by decide),
          Text.runs_symbol (by decide), ih]
        rfl
  rw [Text.squareWords, Text.words_ofList, signedSquare, String.toList_ofList, hruns]
  simp

theorem squaresEndWords_signedSquare (signs : Nat) :
    Text.squaresEndWords (signedSquare signs).toList = true := by
  rw [signedSquare, String.toList_ofList]
  induction signs with
  | zero => decide
  | succ signs ih =>
      rw [List.replicate_succ, List.cons_append, Text.squaresEndWords_cons (by decide)]
      exact ih

theorem parse_signedSquare (signs : Nat) :
    parse calculator .normal (signedSquare signs) =
      (Climbing.parse calculator { words := List.replicate signs "-" ++ ["1", "^", "2"] }).1 := by
  have hspell : (List.replicate signs "-").flatMap spellSquare = List.replicate signs "-" := by
    induction signs with
    | zero => rfl
    | succ signs ih => rw [List.replicate_succ, List.flatMap_cons, ih]; rfl
  rw [parse, Text.words_normalize_squares (squaresEndWords_signedSquare signs),
    squareWords_signedSquare, List.flatMap_append, hspell]
  rfl

theorem readWithSquares_signedSquare (signs : Nat) :
    readWithSquares .normal (signedSquare signs) =
      (Climbing.parse calculator { words := List.replicate signs "-" ++ ["1", "**"] }).1 := by
  rw [readWithSquares, squareWords_signedSquare]
  rfl

theorem not_keepsSquares {mode : Mode} {text : String}
    (h : outcomeBy wholePower (parse calculator mode text) ≠
      outcomeBy wholePower (readWithSquares mode text)) : ¬ KeepsSquares mode text := by
  intro hk
  exact h (hk wholePower wholePower_two)

theorem not_keepsSquares_signedSquare : ¬ KeepsSquares .normal (signedSquare 255) := by
  refine not_keepsSquares ?_
  rw [parse_signedSquare, readWithSquares_signedSquare]
  decide +kernel

theorem squares_can_change_their_meaning :
    (∀ text ∈ ["2******", "2**^3", "0.5**!", "**"], ∀ mode,
      Text.squaresEndWords text.toList = true ∧ ¬ KeepsSquares mode text) ∧
    (∀ mode, evaluate calculator mode "0.5**!" ≠
      outcomeBy Float.pow (readWithSquares mode "0.5**!")) ∧
    Text.squaresEndWords (signedSquare 255).toList = true ∧
      ¬ KeepsSquares .normal (signedSquare 255) := by
  refine ⟨?_, ?_, squaresEndWords_signedSquare 255, not_keepsSquares_signedSquare⟩
  · intro text ht mode
    simp only [List.mem_cons, List.not_mem_nil, or_false] at ht
    constructor
    · rcases ht with rfl | rfl | rfl | rfl <;> decide
    · refine not_keepsSquares ?_
      rcases ht with rfl | rfl | rfl | rfl <;> cases mode <;> decide +kernel
  · intro mode
    cases mode <;> decide +kernel

end InfixArithmetic

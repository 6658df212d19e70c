import InfixArithmetic.Text.Words

/-!
The normal form of a text: squaring spelled as a power, every symbol a word of its own, and single
spaces between words.
-/

namespace InfixArithmetic.Text

def isSymbol (c : Char) : Bool :=
  c ∈ ['-', '+', '*', '/', '(', ')', '^', '!']

/-- Doubled stars, taken from the left, become `^2`. -/
def spellSquares : List Char → List Char
  | [] => []
  | [c] => [c]
  | c :: d :: rest =>
      if c = '*' ∧ d = '*' then '^' :: '2' :: spellSquares rest
      else c :: spellSquares (d :: rest)

def setApart (c : Char) : List Char :=
  if isSymbol c then [' ', c, ' '] else [c]

def normalize (text : String) : String :=
  " ".intercalate (words (String.ofList ((spellSquares text.toList).flatMap setApart)))

theorem words_normalize (text : String) :
    words (normalize text) =
      (runs ((spellSquares text.toList).flatMap setApart)).map String.ofList := by
  rw [normalize, words_intercalate_words, words_ofList]

theorem isBlank_eq_false_of_isSymbol {c : Char} (h : isSymbol c = true) : isBlank c = false := by
  simp only [isSymbol, List.mem_cons, List.not_mem_nil, or_false, decide_eq_true_eq] at h
  rcases h with h | h | h | h | h | h | h | h <;> subst h <;> decide

end InfixArithmetic.Text

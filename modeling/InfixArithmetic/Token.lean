import InfixArithmetic.Grammar

/-!
Tokens: words, told apart as values and operations by a grammar.
-/

namespace InfixArithmetic

inductive Token where
  | value (text : String)
  | operation (text : String)
  deriving DecidableEq

def Token.text : Token → String
  | .value text | .operation text => text

def Token.isValue : Token → Bool
  | .value _ => true
  | .operation _ => false

namespace Grammar

variable {W J : Type}

def token (g : Grammar W J) (word : String) : Token :=
  if g.knows word then .operation word else .value word

def tokens (g : Grammar W J) (words : List String) : List Token :=
  words.map g.token

def extract (g : Grammar W J) (words : List String) : Option Token × List String :=
  (words.head?.map g.token, words.tail)

def peek (g : Grammar W J) (words : List String) : Option Token :=
  (g.extract words).1

theorem isValue_token (g : Grammar W J) (word : String) :
    (g.token word).isValue = !g.knows word := by
  rw [token]
  cases g.knows word <;> rfl

end Grammar

end InfixArithmetic

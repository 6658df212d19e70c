import InfixArithmetic.Dialogue

/-!
Command lines: options in any order around at most one expression.
-/

namespace InfixArithmetic

structure Arguments where
  mode : Option Mode := none
  tree : Bool := false
  program : Bool := false
  expression : Option String := none
  deriving DecidableEq

namespace Arguments

def setMode (a : Arguments) (name : String) : Option Arguments :=
  match a.mode, Mode.ofName name with
  | none, .ok mode => some { a with mode := some mode }
  | _, _ => none

def setTree (a : Arguments) : Option Arguments :=
  if a.tree then none else some { a with tree := true }

def setProgram (a : Arguments) : Option Arguments :=
  if a.program then none else some { a with program := true }

def setExpression (a : Arguments) (text : String) : Option Arguments :=
  match a.expression with
  | none => some { a with expression := some text }
  | some _ => none

def modeFlag : String := "--mode"

/-- The name behind `--mode=`. -/
def modeName? (word : String) : Option String :=
  let flag := modeFlag.toList ++ ['=']
  if flag.isPrefixOf word.toList then some (String.ofList (word.toList.drop flag.length)) else none

def one (a : Arguments) (word : String) : Option Arguments :=
  if word = "--tree" then a.setTree
  else if word = "--postfix" then a.setProgram
  else
    match modeName? word with
    | some name => a.setMode name
    | none => a.setExpression word

/-- Takes all words; `--mode` takes the word behind it along. -/
def addAll : Arguments → List String → Option Arguments
  | a, [] => some a
  | a, [word] => if word = modeFlag then none else a.one word
  | a, word :: next :: rest =>
      if word = modeFlag then (a.setMode next).bind (addAll · rest)
      else (a.one word).bind (addAll · (next :: rest))

/-- No option may be given twice, and no mode but those known. -/
def ofList? (words : List String) : Option Arguments :=
  addAll {} words

def options (a : Arguments) : Options :=
  ⟨a.mode.getD .normal, a.tree, a.program⟩

end Arguments

end InfixArithmetic

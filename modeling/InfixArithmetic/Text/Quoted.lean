import InfixArithmetic.Text.Invisible

/-!
Texts in double quotes, on one line and visible: quotes, backslashes, line breaks, tabs and nulls
take a backslash, and what cannot be seen takes its code point in braces.
-/

namespace InfixArithmetic.Text

def codePoint (c : Char) : List Char :=
  ['\\', 'u', '\x7b'] ++ Nat.toDigits 16 c.toNat ++ ['\x7d']

def escape (c : Char) : List Char :=
  if c = '\x00' then ['\\', '0']
  else if c = '\t' then ['\\', 't']
  else if c = '\n' then ['\\', 'n']
  else if c = '\r' then ['\\', 'r']
  else if c = '"' ∨ c = '\\' then ['\\', c]
  else if isInvisible c then codePoint c
  else [c]

def quoted (text : String) : String :=
  String.ofList ('"' :: text.toList.flatMap escape ++ ['"'])

end InfixArithmetic.Text

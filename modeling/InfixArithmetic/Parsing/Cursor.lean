/-!
Cursors: the words that are not read yet, and how many levels of reading are open.
-/

namespace InfixArithmetic

structure Cursor where
  words : List String
  depth : Nat := 0
  deriving DecidableEq

namespace Cursor

def moveTo (c : Cursor) (words : List String) : Cursor :=
  { c with words }

def descend (c : Cursor) : Cursor :=
  { c with depth := c.depth + 1 }

def ascend (c : Cursor) : Cursor :=
  { c with depth := c.depth - 1 }

theorem ascend_descend (c : Cursor) : c.descend.ascend = c := rfl

theorem depth_moveTo (c : Cursor) (words : List String) : (c.moveTo words).depth = c.depth := rfl

end Cursor

end InfixArithmetic

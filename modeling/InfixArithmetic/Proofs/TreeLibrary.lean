import InfixArithmetic.Proofs.ReportLines
import InfixArithmetic.Proofs.Visits

/-!
Trees that a library builds at a cursor, node by node, and writes.  What is known of such a library
is that its operations do to its builders what the operations here do to theirs, and that it writes
a finished tree with a line for every node (`TreeLibrary.Follows`).  A visit that builds with it
adds the expression's tree as one child and leaves the cursor where it was.
-/

namespace InfixArithmetic

namespace Forest

def append : Forest → Forest → Forest
  | .nil, others => others
  | .node label children rest, others => .node label children (rest.append others)

theorem append_nil (f : Forest) : f.append .nil = f := by
  induction f with
  | nil => rfl
  | node label children rest _ ih => exact congrArg (node label children) ih

theorem append_assoc (f g h : Forest) : (f.append g).append h = f.append (g.append h) := by
  induction f with
  | nil => rfl
  | node label children rest _ ih => exact congrArg (node label children) ih

end Forest

structure OpenNode where
  label : String
  children : Forest
  deriving DecidableEq

namespace OpenNode

def attach (n : OpenNode) (children : Forest) : OpenNode :=
  { n with children := n.children.append children }

def draw (n : OpenNode) : String :=
  String.join ((n.label :: n.children.lines "").map (· ++ "\n"))

end OpenNode

/-- A cursor at a node under construction, with the nodes above it, innermost first. -/
structure Builder where
  node : OpenNode
  above : List OpenNode := []
  deriving DecidableEq

namespace Builder

def root (label : String) : Builder :=
  { node := ⟨label, .nil⟩ }

def attach (b : Builder) (children : Forest) : Builder :=
  { b with node := b.node.attach children }

def beginChild (b : Builder) (label : String) : Builder :=
  ⟨⟨label, .nil⟩, b.node :: b.above⟩

def endChild (b : Builder) : Builder :=
  match b.above with
  | [] => b
  | parent :: above => attach ⟨parent, above⟩ (.node b.node.label b.node.children .nil)

theorem attach_nil (b : Builder) : b.attach .nil = b := by
  simp [attach, OpenNode.attach, Forest.append_nil]

theorem attach_attach (b : Builder) (f g : Forest) :
    (b.attach f).attach g = b.attach (f.append g) := by
  simp [attach, OpenNode.attach, Forest.append_assoc]

end Builder

/-- What is used of a library that builds trees and writes them. -/
structure TreeLibrary (B T : Type) where
  new : String → B
  beginChild : B → String → B
  endChild : B → B
  addEmptyChild : B → String → B
  build : B → T
  /-- The bytes written, unless writing fails. -/
  write : T → Option ByteArray

variable {B T W J : Type}

def Visitor.building (lib : TreeLibrary B T) : Visitor W J (B → B) where
  value word b := lib.addEmptyChild b word
  literal x b := lib.addEmptyChild b (Decimal.text x)
  binary f left right b := lib.endChild (right (left (lib.beginChild b f.symbol)))
  unary f operand b := lib.endChild (operand (lib.beginChild b f.symbol))
  program p b :=
    lib.endChild ((p.map Instruction.text).foldl lib.addEmptyChild (lib.beginChild b "rpn"))

/-- The text that is displayed, if the library writes the tree and what it writes is text. -/
def Expression.display (lib : TreeLibrary B T) (e : Expression W J) : Option String := do
  let bytes ← lib.write (lib.build (e.visit (.building lib) (lib.new "expression")))
  String.fromUTF8? bytes

namespace TreeLibrary

/--
The builders of a library stand for those here: an empty child is one begun and ended at once, only
a node that was begun is ended, and a tree is written when the cursor is at its root and no label
breaks its line.
-/
structure Follows (lib : TreeLibrary B T) (stands : B → Builder → Prop) : Prop where
  new : ∀ label, stands (lib.new label) (.root label)
  beginChild : ∀ {b c} label, stands b c → stands (lib.beginChild b label) (c.beginChild label)
  endChild : ∀ {b node parent above}, stands b ⟨node, parent :: above⟩ →
    stands (lib.endChild b) (Builder.endChild ⟨node, parent :: above⟩)
  addEmptyChild : ∀ {b c} label, stands b c →
    stands (lib.addEmptyChild b label) (c.beginChild label).endChild
  write : ∀ {b root}, stands b ⟨root, []⟩ → Text.OneLine root.label → root.children.OneLine →
    lib.write (lib.build b) = some root.draw.toUTF8

namespace Follows

variable {lib : TreeLibrary B T} {stands : B → Builder → Prop} {b : B} {c : Builder}

theorem closed (hlib : lib.Follows stands) {label : String} {children : Forest}
    (h : stands b ((c.beginChild label).attach children)) :
    stands (lib.endChild b) (c.attach (.node label children .nil)) :=
  hlib.endChild h

theorem leaves (hlib : lib.Follows stands) (h : stands b c) (labels : List String) :
    stands (labels.foldl lib.addEmptyChild b) (c.attach (.leaves labels)) := by
  induction labels generalizing b c with
  | nil => rwa [Forest.leaves, Builder.attach_nil]
  | cons label labels ih =>
      have hfirst : stands (lib.addEmptyChild b label) (c.attach (.node label .nil .nil)) :=
        hlib.addEmptyChild label h
      have hall := ih hfirst
      rwa [Builder.attach_attach] at hall

end Follows

def plain : TreeLibrary Builder OpenNode where
  new := .root
  beginChild := .beginChild
  endChild := .endChild
  addEmptyChild b label := (b.beginChild label).endChild
  build := Builder.node
  write root := some root.draw.toUTF8

theorem plain_follows : plain.Follows (· = ·) where
  new _ := rfl
  beginChild _ h := by rw [h]; rfl
  endChild h := by rw [h]; rfl
  addEmptyChild _ h := by rw [h]; rfl
  write h _ _ := by rw [h]; rfl

end TreeLibrary

namespace Expression

theorem append_outline (e : Expression W J) (rest : Forest) :
    (e.outline .nil).append rest = e.outline rest := by
  cases e <;> rfl

theorem stands_visit_building {lib : TreeLibrary B T} {stands : B → Builder → Prop}
    (hlib : lib.Follows stands) (e : Expression W J) {b : B} {c : Builder} (h : stands b c) :
    stands (e.visit (.building lib) b) (c.attach (e.outline .nil)) := by
  induction e generalizing b c with
  | value word => exact hlib.addEmptyChild word h
  | literal x => exact hlib.addEmptyChild (Decimal.text x) h
  | binary f left right ihl ihr =>
      have hboth := ihr (ihl (hlib.beginChild f.symbol h))
      rw [Builder.attach_attach, append_outline] at hboth
      exact hlib.closed hboth
  | unary f operand ih => exact hlib.closed (ih (hlib.beginChild f.symbol h))
  | program p => exact hlib.closed (hlib.leaves (hlib.beginChild "rpn" h) _)

theorem display_eq {lib : TreeLibrary B T} {stands : B → Builder → Prop}
    (hlib : lib.Follows stands) {e : Expression W J} (he : (e.outline .nil).OneLine) :
    e.display lib = some e.drawing := by
  have hroot : stands (e.visit (.building lib) (lib.new "expression"))
      ⟨⟨"expression", e.outline .nil⟩, []⟩ :=
    stands_visit_building hlib e (hlib.new "expression")
  have hlabel : Text.OneLine "expression" := by decide
  rw [display, hlib.write hroot hlabel he]
  exact dif_pos e.drawing.isValidUTF8

end Expression

end InfixArithmetic

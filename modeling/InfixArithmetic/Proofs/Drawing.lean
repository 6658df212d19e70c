import InfixArithmetic.Proofs.PrintedNumbers
import InfixArithmetic.Proofs.TreeLibrary

/-!
The drawing of an expression.  It has a line for every node, in preorder (`lines_outline`).  The
lines of a forest tell the forest, whatever its labels look like: at every margin a branch begins a
node, and a continuation goes on below it.
-/

namespace InfixArithmetic

open Text (OneLine linesOf)

variable {W J : Type}

def Forest.margin (above : List Bool) : String :=
  String.join (above.map continuation)

/-- A node of a drawing, with a mark at every level above whether the last sibling is reached. -/
structure Node where
  above : List Bool
  last : Bool
  label : String
  deriving DecidableEq

namespace Node

def depth (n : Node) : Nat :=
  n.above.length + 1

def line (n : Node) : String :=
  Forest.margin n.above ++ Forest.branch n.last ++ n.label

theorem drop_line (n : Node) : n.line.toList.drop (3 * n.depth) = n.label.toList := by
  have hmargin : (Forest.margin n.above).toList.length = 3 * n.above.length := by
    induction n.above with
    | nil => rfl
    | cons last above ih =>
        have hlast : (Forest.continuation last).toList.length = 3 := by cases last <;> rfl
        rw [Forest.margin, List.map_cons, String.join_cons, String.toList_append,
          List.length_append, hlast, ← Forest.margin, ih, List.length_cons]
        ring
  have hbranch : (Forest.branch n.last).toList.length = 3 := by cases n.last <;> rfl
  rw [line, String.toList_append]
  refine List.drop_left' ?_
  rw [String.toList_append, List.length_append, hmargin, hbranch, depth]
  ring

end Node

def Program.nodes (above : List Bool) : Program W J → List Node
  | [] => []
  | i :: rest => ⟨above, rest.isEmpty, i.text⟩ :: nodes above rest

namespace Expression

/-- The nodes in preorder, and below a program its tokens. -/
def nodes : Expression W J → List Bool → Bool → List Node
  | .value text, above, last => [⟨above, last, text⟩]
  | .literal x, above, last => [⟨above, last, Decimal.text x⟩]
  | .binary f left right, above, last =>
      ⟨above, last, f.symbol⟩ ::
        (left.nodes (above ++ [last]) false ++ right.nodes (above ++ [last]) true)
  | .unary f operand, above, last =>
      ⟨above, last, f.symbol⟩ :: operand.nodes (above ++ [last]) true
  | .program p, above, last => ⟨above, last, "rpn"⟩ :: p.nodes (above ++ [last])

def texts : Expression W J → List String
  | .value text => [text]
  | .literal _ => []
  | .binary _ left right => left.texts ++ right.texts
  | .unary _ operand => operand.texts
  | .program p => p.map Instruction.text

end Expression

namespace Forest

theorem margin_append (above : List Bool) (last : Bool) :
    margin (above ++ [last]) = margin above ++ continuation last := by
  simp [margin]

theorem lines_leaves (p : Program W J) (above : List Bool) :
    (leaves (p.map Instruction.text)).lines (margin above) = (p.nodes above).map Node.line := by
  induction p with
  | nil => rfl
  | cons i p ih =>
      have hlast : (leaves (p.map Instruction.text)).isNil = p.isEmpty := by cases p <;> rfl
      simp only [List.map_cons, leaves, lines, Program.nodes, List.nil_append, hlast, ih]
      rfl

end Forest

theorem Expression.isNil_outline (e : Expression W J) (rest : Forest) :
    (e.outline rest).isNil = false := by
  cases e <;> rfl

theorem Expression.lines_outline (e : Expression W J) (rest : Forest) (above : List Bool) :
    (e.outline rest).lines (Forest.margin above) =
      (e.nodes above rest.isNil).map Node.line ++ rest.lines (Forest.margin above) := by
  induction e generalizing rest above with
  | value text => rfl
  | literal x => rfl
  | binary f left right ihl ihr =>
      rw [outline, Forest.lines, ← Forest.margin_append, ihl, ihr, isNil_outline]
      simp [nodes, Node.line, Forest.lines, Forest.isNil]
  | unary f operand ih =>
      rw [outline, Forest.lines, ← Forest.margin_append, ih]
      simp [nodes, Node.line, Forest.lines, Forest.isNil]
  | program p =>
      rw [outline, Forest.lines, ← Forest.margin_append, Forest.lines_leaves]
      simp [nodes, Node.line]

namespace Forest

theorem margin_prefix {f : Forest} {margin line : String} (h : line ∈ f.lines margin) :
    margin.toList <+: line.toList := by
  obtain ⟨last, tail, rfl | rfl⟩ := exists_margin_of_mem_lines h <;> simp

theorem not_continuation_prefix (last last' : Bool) (tail : List Char) :
    ¬ (continuation last).toList <+: (branch last').toList ++ tail := by
  cases last <;> cases last' <;> simp [continuation, branch]

def isBelow (margin : String) (last : Bool) (line : String) : Bool :=
  (margin ++ continuation last).toList.isPrefixOf line.toList

theorem takeWhile_isBelow (children rest : Forest) (margin : String) (last : Bool) :
    (children.lines (margin ++ continuation last) ++ rest.lines margin).takeWhile
        (isBelow margin last) =
      children.lines (margin ++ continuation last) := by
  have hrest : (rest.lines margin).takeWhile (isBelow margin last) = [] := by
    cases rest with
    | nil => rfl
    | node label below others => simp [lines, isBelow, not_continuation_prefix]
  rw [List.takeWhile_append_of_pos, hrest, List.append_nil]
  intro line hline
  simpa [isBelow] using margin_prefix hline

theorem branch_append_inj {last last' : Bool} {label label' : String}
    (h : branch last ++ label = branch last' ++ label') : last = last' ∧ label = label' := by
  have hlist := congrArg String.toList h
  cases last <;> cases last' <;> simp [branch] at hlist ⊢
  all_goals exact String.toList_injective hlist

theorem lines_injective {f g : Forest} {margin : String} (h : f.lines margin = g.lines margin) :
    f = g := by
  induction f generalizing g margin with
  | nil =>
      cases g with
      | nil => rfl
      | node label children rest => cases h
  | node label children rest ihc ihr =>
      cases g with
      | nil => cases h
      | node label' children' rest' =>
          obtain ⟨hline, hlines⟩ := List.cons.inj h
          obtain ⟨hlast, rfl⟩ := branch_append_inj (by simpa [String.append_assoc] using hline)
          rw [hlast] at hlines
          -- with the same branch, both nodes' own lines are those that go on below that branch
          have hchildren : children.lines (margin ++ continuation rest'.isNil) =
              children'.lines (margin ++ continuation rest'.isNil) := by
            rw [← takeWhile_isBelow children rest, hlines, takeWhile_isBelow]
          rw [hchildren] at hlines
          rw [ihc hchildren, ihr (List.append_cancel_left hlines)]

end Forest

theorem Text.linesOf_join {lines : List String} (h : ∀ line ∈ lines, OneLine line) :
    linesOf (String.join (lines.map (· ++ "\n"))) = lines.map String.toList ++ [[]] := by
  induction lines with
  | nil => rfl
  | cons line lines ih =>
      obtain ⟨hline, hlines⟩ := List.forall_mem_cons.mp h
      rw [List.map_cons, String.join_cons, linesOf_append hline, ih hlines]
      rfl

theorem Decimal.oneLine_text (x : Float) : OneLine (text x) := by
  cases hfinite : x.isFinite with
  | true =>
      obtain ⟨negative, digits, h⟩ := printed_of_isFinite hfinite
      obtain ⟨_, hplain, _⟩ := h.isPlain
      have hdigits : '\n' ∉ digits := fun hm => absurd (hplain _ hm) (by decide)
      rw [h.text_eq, OneLine, String.toList_ofList]
      cases negative <;> simpa [signed] using hdigits
  | false =>
      have hunpack : x.toModel.unpack.isFinite = false := hfinite
      cases hx : x.toModel.unpack <;> rw [hx] at hunpack
      · rename_i s
        rw [text, Binary64.ofFloat, hx]
        cases s <;> decide
      · rw [text, Binary64.ofFloat, hx]
        decide
      · cases hunpack
      · cases hunpack

namespace Expression

variable {e e' : Expression W J}

theorem oneLine_outline (h : ∀ text ∈ e.texts, OneLine text) {rest : Forest}
    (hr : rest.OneLine) : (e.outline rest).OneLine := by
  induction e generalizing rest with
  | value text => exact Forest.oneLine_node.mpr ⟨h text (by simp [texts]), Forest.oneLine_nil, hr⟩
  | literal x => exact Forest.oneLine_node.mpr ⟨Decimal.oneLine_text x, Forest.oneLine_nil, hr⟩
  | binary f left right ihl ihr =>
      have hf : OneLine f.symbol := by cases f <;> decide
      obtain ⟨hleft, hright⟩ := List.forall_mem_append.mp h
      exact Forest.oneLine_node.mpr ⟨hf, ihl hleft (ihr hright Forest.oneLine_nil), hr⟩
  | unary f operand ih =>
      have hf : OneLine f.symbol := by cases f <;> decide
      exact Forest.oneLine_node.mpr ⟨hf, ih h Forest.oneLine_nil, hr⟩
  | program p => exact Forest.oneLine_node.mpr ⟨by decide, Forest.oneLine_leaves h, hr⟩

theorem oneLine_lines (h : ∀ text ∈ e.texts, OneLine text) :
    ∀ line ∈ "expression" :: (e.outline .nil).lines "", OneLine line :=
  List.forall_mem_cons.mpr
    ⟨by decide, (oneLine_outline h Forest.oneLine_nil).lines (by decide)⟩

theorem linesOf_drawing (h : ∀ text ∈ e.texts, OneLine text) :
    linesOf e.drawing =
      "expression".toList :: (e.nodes [] true).map (·.line.toList) ++ [[]] := by
  have hlines : (e.outline .nil).lines "" = (e.nodes [] true).map Node.line :=
    (e.lines_outline .nil []).trans (List.append_nil _)
  rw [drawing, Text.linesOf_join (oneLine_lines h), hlines]
  simp

theorem outline_of_drawing (h : ∀ text ∈ e.texts, OneLine text)
    (h' : ∀ text ∈ e'.texts, OneLine text) (hd : e.drawing = e'.drawing) :
    e.outline .nil = e'.outline .nil := by
  have hlines := congrArg linesOf hd
  rw [drawing, drawing, Text.linesOf_join (oneLine_lines h), Text.linesOf_join (oneLine_lines h')]
    at hlines
  have hsame := (List.map_inj_right fun _ _ => String.toList_injective).mp
    (List.append_cancel_right hlines)
  exact Forest.lines_injective (List.cons.inj hsame).2

end Expression

theorem drawing_shows_the_expression {B T : Type} {lib : TreeLibrary B T}
    {stands : B → Builder → Prop} (hlib : lib.Follows stands) (e : Expression W J)
    (h : ∀ text ∈ e.texts, OneLine text) :
    (∀ b c, stands b c →
      stands (e.visit (.building lib) b) (c.attach (e.outline .nil))) ∧
    e.display lib = some e.drawing ∧
    linesOf e.drawing =
      "expression".toList :: (e.nodes [] true).map (·.line.toList) ++ [[]] ∧
    (∀ n ∈ e.nodes [] true, n.line.toList.drop (3 * n.depth) = n.label.toList) ∧
    ∀ e' : Expression W J, (∀ text ∈ e'.texts, OneLine text) →
      e.display lib = e'.display lib → e.outline .nil = e'.outline .nil := by
  have hdisplay := Expression.display_eq hlib (Expression.oneLine_outline h Forest.oneLine_nil)
  refine ⟨fun b c => e.stands_visit_building hlib, hdisplay, Expression.linesOf_drawing h,
    fun n _ => n.drop_line, fun e' h' hsame => ?_⟩
  have hdisplay' := Expression.display_eq hlib (Expression.oneLine_outline h' Forest.oneLine_nil)
  rw [hdisplay, hdisplay'] at hsame
  exact Expression.outline_of_drawing h h' (Option.some.inj hsame)

theorem drawing_of_sum :
    let e : Expression := .binary .add (.value "1") (.program [.value "└─ 2", .value "!"])
    (∀ text ∈ e.texts, OneLine text) ∧ e.display .plain = some e.drawing ∧
    linesOf e.drawing =
      ["expression", "└─ +", "   ├─ 1", "   └─ rpn", "      ├─ └─ 2", "      └─ !", ""].map
        String.toList := by
  intro e
  have h : ∀ text ∈ e.texts, OneLine text := by decide
  obtain ⟨-, hdisplay, hlines, -⟩ := drawing_shows_the_expression TreeLibrary.plain_follows e h
  exact ⟨h, hdisplay, hlines.trans (by decide)⟩

end InfixArithmetic

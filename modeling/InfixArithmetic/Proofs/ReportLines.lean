import InfixArithmetic.Proofs.Legibility
import InfixArithmetic.Proofs.Reporting
import Mathlib.Control.Monad.Basic

/-!
The lines of a report.  It has one line for the postfix text, whatever the outline above it, and
that line tells the value below it: two reports that show the same show the same value, unless plus
or minus is a sign for the one and stands between operands for the other.
-/

namespace InfixArithmetic

open Grammar (calculator)

namespace Text

def OneLine (text : String) : Prop :=
  '\n' ∉ text.toList

instance (text : String) : Decidable (OneLine text) :=
  inferInstanceAs (Decidable ('\n' ∉ text.toList))

def linesOf (text : String) : List (List Char) :=
  text.toList.splitOn '\n'

/-- The first line that starts with a label. -/
def lineWith? (label text : String) : Option String :=
  ((linesOf text).find? (label.toList.isPrefixOf ·)).map String.ofList

variable {label line : String} {lines : List String}

theorem oneLine_append {s t : String} : OneLine (s ++ t) ↔ OneLine s ∧ OneLine t := by
  simp [OneLine, not_or]

theorem oneLine_of_solid (h : Solid line) : OneLine line := by
  intro hm
  exact absurd (h.2 _ hm) (by decide)

theorem oneLine_intercalate (h : ∀ line ∈ lines, OneLine line) :
    OneLine (" ".intercalate lines) := by
  induction lines with
  | nil => simp [OneLine]
  | cons line lines ih =>
      obtain ⟨hline, hlines⟩ := List.forall_mem_cons.mp h
      cases lines with
      | nil => simpa using hline
      | cons next lines =>
          rw [String.intercalate_cons_cons]
          exact oneLine_append.mpr
            ⟨oneLine_append.mpr ⟨hline, by decide⟩, ih hlines⟩

theorem linesOf_append (h : OneLine line) (rest : String) :
    linesOf (line ++ "\n" ++ rest) = line.toList :: linesOf rest := by
  have hsplit := List.splitOn_append_cons_self_of_not_mem h rest.toList
  simpa [linesOf] using hsplit

theorem lineWith?_append_self (h : OneLine (label ++ line)) (rest : String) :
    lineWith? label (label ++ line ++ "\n" ++ rest) = some (label ++ line) := by
  rw [lineWith?, linesOf_append h, List.find?_cons_of_pos (by simp)]
  simp

theorem lineWith?_append_of_not (h : OneLine line) (hl : ¬ label.toList <+: line.toList)
    (rest : String) : lineWith? label (line ++ "\n" ++ rest) = lineWith? label rest := by
  rw [lineWith?, linesOf_append h, List.find?_cons_of_neg (by simpa using hl), lineWith?]

theorem lineWith?_join_of_not (h : ∀ line ∈ lines, OneLine line)
    (hl : ∀ line ∈ lines, ¬ label.toList <+: line.toList) (rest : String) :
    lineWith? label (String.join (lines.map (· ++ "\n")) ++ rest) = lineWith? label rest := by
  induction lines with
  | nil => simp
  | cons line lines ih =>
      obtain ⟨hline, hlines⟩ := List.forall_mem_cons.mp h
      obtain ⟨hnot, hnots⟩ := List.forall_mem_cons.mp hl
      rw [List.map_cons, String.join_cons, String.append_assoc, lineWith?_append_of_not hline hnot,
        ih hlines hnots]

end Text

open Text (OneLine lineWith?)

namespace Forest

def labels : Forest → List String
  | .nil => []
  | .node label children rest => label :: (children.labels ++ rest.labels)

def OneLine (f : Forest) : Prop :=
  ∀ label ∈ f.labels, Text.OneLine label

theorem oneLine_nil : OneLine .nil := by
  simp [OneLine, labels]

theorem oneLine_node {label : String} {children rest : Forest} :
    OneLine (.node label children rest) ↔
      Text.OneLine label ∧ children.OneLine ∧ rest.OneLine := by
  simp only [OneLine, labels, List.forall_mem_cons, List.forall_mem_append]

theorem oneLine_leaves {names : List String} (h : ∀ name ∈ names, Text.OneLine name) :
    OneLine (leaves names) := by
  induction names with
  | nil => exact oneLine_nil
  | cons name names ih =>
      obtain ⟨hname, hnames⟩ := List.forall_mem_cons.mp h
      exact oneLine_node.mpr ⟨hname, oneLine_nil, ih hnames⟩

theorem OneLine.lines {f : Forest} {margin : String} (h : f.OneLine)
    (hm : Text.OneLine margin) : ∀ line ∈ f.lines margin, Text.OneLine line := by
  have hbranch (last : Bool) : Text.OneLine (branch last) := by
    cases last <;> decide
  have hcontinuation (last : Bool) : Text.OneLine (continuation last) := by
    cases last <;> decide
  induction f generalizing margin with
  | nil => simp [Forest.lines]
  | node label children rest ihc ihr =>
      obtain ⟨hlabel, hchildren, hrest⟩ := oneLine_node.mp h
      simp only [Forest.lines, List.forall_mem_cons, List.forall_mem_append, Text.oneLine_append]
      exact ⟨⟨⟨hm, hbranch _⟩, hlabel⟩,
        ihc hchildren (Text.oneLine_append.mpr ⟨hm, hcontinuation _⟩), ihr hrest hm⟩

theorem exists_margin_of_mem_lines {f : Forest} {margin line : String}
    (h : line ∈ f.lines margin) :
    ∃ last tail, line = margin ++ (branch last ++ tail) ∨
      line = margin ++ (continuation last ++ tail) := by
  induction f generalizing margin with
  | nil => simp [lines] at h
  | node label children rest ihc ihr =>
      simp only [lines, List.mem_cons, List.mem_append] at h
      rcases h with rfl | h | h
      · exact ⟨rest.isNil, label, .inl String.append_assoc⟩
      · obtain ⟨last, tail, rfl | rfl⟩ := ihc h
        · exact ⟨rest.isNil, branch last ++ tail, .inr String.append_assoc⟩
        · exact ⟨rest.isNil, continuation last ++ tail, .inr String.append_assoc⟩
      · exact ihr h

end Forest

def reportLabels : List String := ["Postfix: ", "Result: "]

theorem Expression.lineWith?_drawing {e : Expression} {label : String} (hl : label ∈ reportLabels)
    (he : (e.outline .nil).OneLine) (rest : String) :
    lineWith? label (e.drawing ++ rest) = lineWith? label rest := by
  have hhead : ∀ label ∈ reportLabels, ∀ start ∈ ["expression", Forest.branch false,
      Forest.branch true, Forest.continuation false, Forest.continuation true],
        ∀ tail, ¬ label.toList <+: start.toList ++ tail := by
    simp [reportLabels, Forest.branch, Forest.continuation]
  refine Text.lineWith?_join_of_not ?_ ?_ rest
  · exact List.forall_mem_cons.mpr ⟨by decide, he.lines (by decide)⟩
  · refine List.forall_mem_cons.mpr ⟨?_, ?_⟩
    · simpa using hhead label hl "expression" (by simp) []
    · intro line hm
      obtain ⟨last, tail, rfl | rfl⟩ := Forest.exists_margin_of_mem_lines hm
      · simpa using hhead label hl (Forest.branch last) (by cases last <;> simp) tail.toList
      · simpa using hhead label hl (Forest.continuation last) (by cases last <;> simp) tail.toList

theorem Wrap.oneLine_outline {wrap : Wrap} {e : Expression} {rest : Forest}
    (he : ∀ {next : Forest}, next.OneLine → (e.outline next).OneLine) (hr : rest.OneLine) :
    ((wrap.build e).outline rest).OneLine := by
  cases wrap with
  | group => exact he hr
  | operator f =>
      have hf : OneLine f.symbol := by cases f <;> decide
      exact Forest.oneLine_node.mpr ⟨hf, he Forest.oneLine_nil, hr⟩

theorem Postfix.oneLine_outline {g : Grammar} {e : Expression} {p : Program} (h : Postfix g e p)
    (hp : ∀ i ∈ p, OneLine i.text) {rest : Forest} (hr : rest.OneLine) :
    (e.outline rest).OneLine := by
  induction h generalizing rest with
  | value word =>
      have hword : OneLine word := hp (.value word) List.mem_cons_self
      exact Forest.oneLine_node.mpr ⟨hword, Forest.oneLine_nil, hr⟩
  | literal x =>
      have hx : OneLine (Decimal.text x) := hp (.literal x) List.mem_cons_self
      exact Forest.oneLine_node.mpr ⟨hx, Forest.oneLine_nil, hr⟩
  | program p =>
      have hleaves := Forest.oneLine_leaves (List.forall_mem_map.mpr hp)
      exact Forest.oneLine_node.mpr ⟨by decide, hleaves, hr⟩
  | leading _ _ _ ih | behind _ _ _ _ ih =>
      exact Wrap.oneLine_outline (ih (List.forall_mem_append.mp hp).1) hr
  | @between _ _ f _ _ _ _ _ _ _ _ ihl ihr =>
      have hf : OneLine f.symbol := by cases f <;> decide
      obtain ⟨hboth, _⟩ := List.forall_mem_append.mp hp
      obtain ⟨hleft, hright⟩ := List.forall_mem_append.mp hboth
      have hoperands := ihl hleft (ihr hright Forest.oneLine_nil)
      exact Forest.oneLine_node.mpr ⟨hf, hoperands, hr⟩

namespace Program

variable {p : Program}

theorem Legible.oneLine_text (h : p.Legible) : OneLine p.text :=
  Text.oneLine_intercalate
    (List.forall_mem_map.mpr fun i hi => Text.oneLine_of_solid (h.solid i hi))

theorem legible_of_mode {mode : Mode} {text : String} {e : Expression}
    (h : parse calculator mode text = .ok (some e)) (hp : e.toProgram calculator = .ok p) :
    p.Legible ∧ p.evaluate = e.evaluate := by
  have hwords : ∀ w ∈ Text.words (Text.normalize text), Text.Solid w :=
    fun w hw => Text.solid_of_mem_words hw
  simp only [parse, Mode.parse] at h
  cases mode with
  | normal =>
      obtain ⟨hfree, q, hq, hy⟩ := yard_of_climbing_some aligned_calculator h
      obtain rfl := Except.ok.inj (hp.symm.trans hq.toProgram)
      exact ⟨legible_of_parse hwords hy, hq.evaluate_eq hfree⟩
  | rpn =>
      cases hy : (Yard.parse calculator (Text.words (Text.normalize text))).1 with
      | error cause => simp [hy, Except.map] at h
      | ok found =>
          cases found with
          | none => simp [hy, Except.map] at h
          | some q =>
              obtain rfl : Expression.program q = e := by simpa [hy, Except.map] using h
              obtain rfl : q = p := Except.ok.inj hp
              exact ⟨legible_of_parse hwords hy, rfl⟩

end Program

namespace Options

variable {o o' : Options} {text text' report report' : String} {e : Expression} {p : Program}
  {x : Float}

/-- The text is read as an expression with this program. -/
def Programs (o : Options) (text : String) (p : Program) : Prop :=
  ∃ e, parse calculator o.mode text = .ok (some e) ∧ e.toProgram calculator = .ok p

theorem report_eq_some (h : o.report text = .ok (some report)) :
    ∃ e p x, parse calculator o.mode text = .ok (some e) ∧ e.toProgram calculator = .ok p ∧
      e.evaluate = .ok x ∧ report = o.rendering e p x := by
  rcases report_settings o.mode text with ⟨complaint, _, hc⟩ | hn | ⟨e, p, x, hparse, hp, hx, hr⟩
  · cases h.symm.trans (hc o.tree o.program)
  · cases h.symm.trans (hn o.tree o.program)
  · have heq := Option.some.inj (Except.ok.inj (h.symm.trans (hr o.tree o.program)))
    exact ⟨e, p, x, hparse, hp, hx, heq⟩

theorem lineWith?_rendering (hp : p.Legible) (he : Postfix calculator e p) {label : String}
    (hl : label ∈ reportLabels) :
    lineWith? label (o.rendering e p x) =
      lineWith? label ((if o.program then "Postfix: " ++ p.text ++ "\n" else "") ++
        ("Result: " ++ Decimal.text x ++ "\n")) := by
  have hlabels := he.oneLine_outline
    (fun i hi => Text.oneLine_of_solid (hp.solid i hi)) Forest.oneLine_nil
  rw [rendering, String.append_assoc, String.append_assoc, String.append_assoc]
  cases o.tree with
  | true => simpa [String.append_assoc] using Expression.lineWith?_drawing hl hlabels _
  | false => simp [String.append_assoc]

theorem programLine_rendering (ho : o.program = true) (hp : p.Legible)
    (he : Postfix calculator e p) :
    lineWith? "Postfix: " (o.rendering e p x) = some ("Postfix: " ++ p.text) := by
  rw [lineWith?_rendering hp he (by simp [reportLabels]), ho, if_pos rfl]
  exact Text.lineWith?_append_self (Text.oneLine_append.mpr ⟨by decide, hp.oneLine_text⟩) _

theorem resultLine_rendering (hp : p.Legible) (he : Postfix calculator e p) :
    lineWith? "Result: " (o.rendering e p x) =
      lineWith? "Result: " ("Result: " ++ Decimal.text x ++ "\n") := by
  rw [lineWith?_rendering hp he (by simp [reportLabels])]
  cases o.program with
  | false => simp
  | true =>
      rw [if_pos rfl]
      have hone := Text.oneLine_append.mpr
        ⟨(by decide : OneLine "Postfix: "), hp.oneLine_text⟩
      exact Text.lineWith?_append_of_not hone (by simp) _

end Options

open Options (Programs)

theorem postfix_line_tells_the_result {o o' : Options} {text text' report report' : String}
    (ho : o.program = true) (ho' : o'.program = true)
    (h : o.report text = .ok (some report)) (h' : o'.report text' = .ok (some report'))
    (hline : lineWith? "Postfix: " report = lineWith? "Postfix: " report') :
    ∃ p p', Programs o text p ∧ Programs o' text' p' ∧
      List.Forall₂ Instruction.Resembles p p' ∧ p.countP (·.signs) = p'.countP (·.signs) ∧
      (Program.SameSigns p p' →
        p = p' ∧ lineWith? "Result: " report = lineWith? "Result: " report') := by
  obtain ⟨e, p, x, hparse, hp, hx, rfl⟩ := Options.report_eq_some h
  obtain ⟨e', p', x', hparse', hp', hx', rfl⟩ := Options.report_eq_some h'
  obtain ⟨hlegible, hvalue⟩ := Program.legible_of_mode hparse hp
  obtain ⟨hlegible', hvalue'⟩ := Program.legible_of_mode hparse' hp'
  have hpost := Postfix.of_toProgram hp
  have hpost' := Postfix.of_toProgram hp'
  rw [Options.programLine_rendering ho hlegible hpost,
    Options.programLine_rendering ho' hlegible' hpost'] at hline
  have htext : p.text = p'.text := by simpa using hline
  have hresembles := hlegible.resembles hlegible' htext
  refine ⟨p, p', ⟨e, hparse, hp⟩, ⟨e', hparse', hp'⟩, hresembles,
    hlegible.countP_signs hlegible' hresembles, ?_⟩
  intro hs
  obtain rfl := hlegible.eq_of_sameSigns hlegible' hresembles hs
  obtain rfl : x = x' := by
    have hsame : e.evaluate = e'.evaluate := hvalue.symm.trans hvalue'
    exact Except.ok.inj (hx.symm.trans (hsame.trans hx'))
  exact ⟨rfl, by rw [Options.resultLine_rendering hlegible hpost,
    Options.resultLine_rendering hlegible' hpost']⟩

theorem postfix_line_tells_the_result_outline :
    let plain := "Postfix: 1 - 2 -\nResult: -3\n"
    let drawn := "expression\n└─ rpn\n   ├─ 1\n   ├─ -\n   ├─ 2\n   └─ -\n" ++ plain
    Options.report ⟨.normal, false, true⟩ "-1-2" = .ok (some plain) ∧
      Options.report ⟨.rpn, true, true⟩ "(-1)-2" = .ok (some drawn) ∧
      lineWith? "Postfix: " plain = lineWith? "Postfix: " drawn ∧
      ∃ p p', Programs ⟨.normal, false, true⟩ "-1-2" p ∧ Programs ⟨.rpn, true, true⟩ "(-1)-2" p' ∧
        List.Forall₂ Instruction.Resembles p p' ∧ p.countP (·.signs) = p'.countP (·.signs) ∧
        (Program.SameSigns p p' →
          p = p' ∧ lineWith? "Result: " plain = lineWith? "Result: " drawn) := by
  intro plain drawn
  have h : Options.report ⟨.normal, false, true⟩ "-1-2" = .ok (some plain) := by decide +kernel
  have h' : Options.report ⟨.rpn, true, true⟩ "(-1)-2" = .ok (some drawn) := by decide +kernel
  have hline : lineWith? "Postfix: " plain = lineWith? "Postfix: " drawn := by decide +kernel
  have htells := postfix_line_tells_the_result rfl rfl h h' hline
  exact ⟨h, h', hline, htells⟩

theorem same_postfix_line_other_result :
    (∀ mode,
      Options.report ⟨mode, false, true⟩ "-(1-2)" =
        .ok (some "Postfix: 1 2 - -\nResult: 1\n") ∧
      Options.report ⟨mode, false, true⟩ "1 - -2" =
        .ok (some "Postfix: 1 2 - -\nResult: 3\n")) ∧
    ∀ mode, ¬ ∀ text text' report report',
      Options.report ⟨mode, false, true⟩ text = .ok (some report) →
      Options.report ⟨mode, false, true⟩ text' = .ok (some report') →
      lineWith? "Postfix: " report = lineWith? "Postfix: " report' →
        lineWith? "Result: " report = lineWith? "Result: " report' := by
  have hreports : ∀ mode,
      Options.report ⟨mode, false, true⟩ "-(1-2)" =
        .ok (some "Postfix: 1 2 - -\nResult: 1\n") ∧
      Options.report ⟨mode, false, true⟩ "1 - -2" =
        .ok (some "Postfix: 1 2 - -\nResult: 3\n") := by
    intro mode
    cases mode <;> constructor <;> decide +kernel
  refine ⟨hreports, ?_⟩
  intro mode htells
  obtain ⟨hsign, hminus⟩ := hreports mode
  have hresult := htells _ _ _ _ hsign hminus (by decide +kernel)
  revert hresult
  decide +kernel

end InfixArithmetic

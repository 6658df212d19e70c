import InfixArithmetic.Proofs.Acceptance
import InfixArithmetic.Proofs.Derivations
import InfixArithmetic.Text.Words
import Mathlib.Combinatorics.Enumerative.DyckWord

/-!
Groups of what is accepted.  The yard knows a closing word by its name, so it accepts only words
whose groups balance.  Climbing knows it by its priority alone: the groups balance in all that it
accepts if and only if that priority is above no floor, and otherwise it takes a stray one for an
operation.
-/

namespace InfixArithmetic

open Grammar (calculator)

variable {W J : Type}

namespace Grammar

variable {g : Grammar W J} {word : String} {words rest : List String}

/-- The groups that words open and close, every word read by where it stands. -/
def brackets (g : Grammar W J) : Bool → List String → List DyckStep
  | _, [] => []
  | true, word :: rest =>
      match g.leading? word with
      | none => g.brackets false rest
      | some op => if op.opensGroup then .U :: g.brackets true rest else g.brackets true rest
  | false, word :: rest =>
      match g.trailing? word with
      | none => g.brackets false rest
      | some op =>
          if op.closesGroup then .D :: g.brackets false rest
          else
            match op.form with
            | .behind _ => g.brackets false rest
            | .between _ _ => g.brackets true rest

def Balanced (g : Grammar W J) (words : List String) : Prop :=
  ∃ p : DyckWord, g.brackets true words = p.toList

theorem brackets_nil (expecting : Bool) : g.brackets expecting [] = [] := by
  cases expecting <;> rfl

theorem brackets_value (h : g.knows word = false) :
    g.brackets true (word :: rest) = g.brackets false rest := by
  simp [brackets, leading?_eq_none h]

theorem brackets_leads (h : g.Leads word) :
    g.brackets true (word :: rest) = g.brackets true rest := by
  obtain ⟨op, hl, ho⟩ := h
  simp [brackets, hl, ho]

theorem brackets_opens (h : g.Opens word) :
    g.brackets true (word :: rest) = .U :: g.brackets true rest := by
  obtain ⟨op, hl, ho⟩ := h
  simp [brackets, hl, ho]

theorem brackets_follows (h : g.Follows word) :
    g.brackets false (word :: rest) = g.brackets false rest := by
  obtain ⟨op, ht, ⟨wrap, hf⟩, hc⟩ := h
  simp [brackets, ht, hf, hc]

theorem brackets_joins (h : g.Joins word) :
    g.brackets false (word :: rest) = g.brackets true rest := by
  obtain ⟨op, ht, a, f, hf⟩ := h
  simp [brackets, ht, hf, Trailing.closesGroup_between hf]

theorem brackets_closes (h : g.Closes word) :
    g.brackets false (word :: rest) = .D :: g.brackets false rest := by
  obtain ⟨op, ht, hc⟩ := h
  simp [brackets, ht, hc]

/-- The words before `rest` hold an expression, and every group that they open they also close. -/
def Encloses (g : Grammar W J) (words rest : List String) : Prop :=
  ∃ p : DyckWord, g.brackets true words = p.toList ++ g.brackets false rest

namespace Encloses

variable {after : List String}

theorem balanced (h : g.Encloses words []) : g.Balanced words := by
  obtain ⟨p, hp⟩ := h
  exact ⟨p, by simpa [brackets_nil] using hp⟩

theorem value (h : g.knows word = false) : g.Encloses (word :: rest) rest :=
  ⟨0, brackets_value h⟩

theorem leads (hw : g.Leads word) (h : g.Encloses words rest) :
    g.Encloses (word :: words) rest := by
  obtain ⟨p, hp⟩ := h
  exact ⟨p, (brackets_leads hw).trans hp⟩

theorem follows (h : g.Encloses words (word :: rest)) (hw : g.Follows word) :
    g.Encloses words rest := by
  obtain ⟨p, hp⟩ := h
  exact ⟨p, by rw [hp, brackets_follows hw]⟩

theorem joined (hl : g.Encloses words (word :: rest)) (hw : g.Joins word)
    (hr : g.Encloses rest after) : g.Encloses words after := by
  obtain ⟨p, hp⟩ := hl
  obtain ⟨q, hq⟩ := hr
  refine ⟨p + q, ?_⟩
  rw [hp, brackets_joins hw, hq, ← List.append_assoc]
  rfl

theorem group {closing : String} (ho : g.Opens word) (h : g.Encloses words (closing :: rest))
    (hc : g.Closes closing) : g.Encloses (word :: words) rest := by
  obtain ⟨p, hp⟩ := h
  refine ⟨p.nest, ?_⟩
  rw [brackets_opens ho, hp, brackets_closes hc]
  simp [DyckWord.nest]

end Encloses

theorem encloses_leading {before : List String} (hb : ∀ w ∈ before, g.Leads w)
    (h : g.Encloses words rest) : g.Encloses (before ++ words) rest := by
  induction before with
  | nil => exact h
  | cons w ws ih => exact (ih fun v hv => hb v (by simp [hv])).leads (hb w (by simp))

theorem encloses_trailing {after : List String} (ha : ∀ w ∈ after, g.Follows w)
    (h : g.Encloses words (after ++ rest)) : g.Encloses words rest := by
  induction after with
  | nil => exact h
  | cons w ws ih => exact ih (fun v hv => ha v (by simp [hv])) (h.follows (ha w (by simp)))

theorem Derives.encloses {c : Category} (h : Derives g c words) (rest : List String) :
    g.Encloses (words ++ rest) rest := by
  -- What comes behind is arbitrary, so that a part finds there the words of the next one.
  induction h generalizing rest with
  | value hk => exact .value hk
  | group ho _ hc ih => simpa using Encloses.group ho (ih _) hc
  | operand hb _ ha ih =>
      rw [List.append_assoc, List.append_assoc]
      exact encloses_trailing ha (encloses_leading hb (ih _))
  | single _ ih => exact ih rest
  | joined _ hj _ ihl ihr => simpa using Encloses.joined (ihl _) hj (ihr rest)

end Grammar

theorem Yard.balanced_of_accepts {g : Grammar W J} {words : List String}
    (h : ∃ p, (Yard.parse g words).1 = .ok (some p)) : g.Balanced words := by
  have hd := Yard.accepts_iff_derives.mp h
  exact Grammar.Encloses.balanced (by simpa using hd.encloses [])

/-- No floor that climbing can have lets this operation be folded. -/
def Grammar.Stops (g : Grammar W J) (closing : Trailing W J) : Prop :=
  closing.priority ≤ 0 ∧ ∀ name op, g.leading? name = some op → op.opensGroup = false →
    closing.priority ≤ op.priority

theorem Grammar.exists_unknown (g : Grammar W J) : ∃ word, g.knows word = false := by
  obtain ⟨word, hw⟩ := Infinite.exists_notMem_finset
    (g.leading.map Leading.name ++ g.trailing.map Trailing.name).toFinset
  refine ⟨word, ?_⟩
  simp only [List.mem_toFinset, List.mem_append, List.mem_map, not_or, not_exists, not_and] at hw
  simpa [knows, leading?, trailing?, and_comm] using hw

theorem Grammar.not_balanced {g : Grammar W J} {words : List String}
    (h : g.brackets true words = [.D]) : ¬ g.Balanced words := by
  rintro ⟨p, hp⟩
  have hcount := p.count_U_eq_count_D
  rw [← hp, h] at hcount
  exact absurd hcount (by decide)

variable [Builds W J]

namespace Climbing

variable {g : Grammar W J} {closing : Trailing W J} {floor : Priority} {word : String}
  {words rest : List String} {e : Expression W J}

theorem encloses_of_climbs (hc : g.trailing? closeGroup = some closing)
    (hg : closing.closesGroup = true) (hs : g.Stops closing) (h : Climbs g floor words e rest)
    (hf : closing.priority ≤ floor) : g.Encloses words rest := by
  -- Every floor in force stays at or above the closing priority, so no fold takes a closing word.
  have hcloses : g.Closes closeGroup := ⟨closing, hc, hg⟩
  have hlt {q : Priority} {floor : Priority} (hf : closing.priority ≤ floor) (hq : floor < q) :
      closing.priority < q := Int32.lt_of_le_of_lt hf hq
  induction h with
  | value hv => exact .value (Grammar.readOperand_eq_none.mp hv)
  | leading hr ho _ _ ih =>
      have hl := Grammar.leading?_of_readOperand hr
      exact (ih (hs.2 _ _ hl ho)).leads ⟨_, hl, ho⟩
  | group hr ho _ _ ih =>
      have hl := Grammar.leading?_of_readOperand hr
      exact .group ⟨_, hl, ho⟩ (ih hs.1) hcloses
  | @behind floor _ _ word op wrap _ _ hr hform hq ih =>
      have ht := Grammar.trailing?_of_readOperation hr
      have hn : op.closesGroup = false := by
        by_contra hn
        have hclosed := (Trailing.closesGroup_iff.mp (by simpa using hn)).2
        rw [← (Grammar.trailing?_eq_some ht).2, hclosed] at ht
        obtain rfl := Option.some.inj (hc.symm.trans ht)
        exact Int32.lt_irrefl (hlt hf hq)
      exact (ih hf).follows ⟨_, ht, ⟨_, hform⟩, hn⟩
  | between _ hr hform hq _ _ ihl ihr =>
      have ht := Grammar.trailing?_of_readOperation hr
      exact (ihl hf).joined ⟨_, ht, _, _, hform⟩ (ihr (le_floorBehind (hlt hf hq) _))

theorem balanced_of_stops (hc : g.trailing? closeGroup = some closing)
    (hg : closing.closesGroup = true) (hs : g.Stops closing)
    (h : (parse g { words }).1 = .ok (some e)) : g.Balanced words :=
  (encloses_of_climbs hc hg hs (climbs_of_parse h) hs.1).balanced

theorem expression_stray {wrap : W} (hform : closing.form = .behind wrap)
    (hc : g.readOperation closeGroup = .ok closing) (hv : g.readOperand word = .ok none)
    (hlt : floor < closing.priority) {c : Cursor} (hd : c.depth < nestingLimit)
    (hw : c.words = [word, closeGroup]) (count : Nat) :
    expression g (count + 2) floor c = (.ok (Builds.wrap wrap (.value word)), c.moveTo []) := by
  rw [expression_succ hd, operand_value (c := c.descend) hw hv]
  simp only [Outcome.andThen]
  rw [climb_fold (c := c.descend.moveTo [closeGroup]) rfl hc hlt, fold_behind hform]
  simp only [Outcome.andThen]
  rw [climb_nil rfl]
  rfl

theorem parse_stray {wrap : W} (hform : closing.form = .behind wrap)
    (hc : g.readOperation closeGroup = .ok closing) (hv : g.readOperand word = .ok none)
    (hlt : 0 < closing.priority) :
    (parse g { words := [word, closeGroup] }).1 = .ok (some (Builds.wrap wrap (.value word))) := by
  have hread := expression_stray hform hc hv hlt (c := { words := [word, closeGroup] })
    (by simp [nestingLimit]) rfl 0
  simp only [parse, List.length_cons, List.length_nil, hread]
  rfl

theorem parse_leads_stray {wrap : W} (hform : closing.form = .behind wrap)
    (hc : g.readOperation closeGroup = .ok closing) (hv : g.readOperand word = .ok none)
    {name : String} {op : Leading W} (hl : g.readOperand name = .ok (some op))
    (ho : op.opensGroup = false) (hlt : op.priority < closing.priority) :
    (parse g { words := [name, word, closeGroup] }).1 =
      .ok (some (Builds.wrap op.wrap (Builds.wrap wrap (.value word)))) := by
  have hinner := expression_stray hform hc hv hlt
    (c := { words := [word, closeGroup], depth := 1 }) (by simp [nestingLimit]) rfl 0
  have hread : expression g 3 0 { words := [name, word, closeGroup] } =
      (.ok (Builds.wrap op.wrap (Builds.wrap wrap (.value word))), { words := [] }) := by
    rw [expression_succ (by simp [nestingLimit]),
      operand_leading (c := Cursor.descend { words := [name, word, closeGroup] }) rfl hl ho]
    simp only [Cursor.descend, Cursor.moveTo, hinner, Outcome.map, Outcome.andThen, Except.map]
    rw [climb_nil rfl]
    rfl
  simp only [parse, List.length_cons, List.length_nil, hread]

theorem exists_stray_of_not_stops (hc : g.trailing? closeGroup = some closing)
    (hg : closing.closesGroup = true) (hs : ¬ g.Stops closing) (hv : g.knows word = false) :
    ∃ words e, (parse g { words }).1 = .ok (some e) ∧ g.brackets true words = [.D] := by
  have hr := Grammar.readOperation_of_trailing? hc
  have hv' := Grammar.readOperand_eq_none.mpr hv
  have hbrackets : g.brackets true [word, closeGroup] = [.D] := by
    rw [Grammar.brackets_value hv, Grammar.brackets_closes ⟨closing, hc, hg⟩, Grammar.brackets_nil]
  obtain ⟨wrap, hform⟩ := (Trailing.closesGroup_iff.mp hg).1
  simp only [Grammar.Stops, not_and_or, not_forall, Int32.not_le] at hs
  rcases hs with hpos | ⟨name, op, hl, ho, hlt⟩
  · exact ⟨_, _, parse_stray hform hr hv' hpos, hbrackets⟩
  · have hl' := Grammar.readOperand_of_leading? hl
    refine ⟨_, _, parse_leads_stray hform hr hv' hl' ho hlt, ?_⟩
    rw [Grammar.brackets_leads ⟨op, hl, ho⟩, hbrackets]

end Climbing

theorem accepted_groups_balance (g : Grammar W J) (closing : Trailing W J)
    (hc : g.trailing? closeGroup = some closing) (hg : closing.closesGroup = true) :
    (∀ words, (∃ p, (Yard.parse g words).1 = .ok (some p)) → g.Balanced words) ∧
    ((∀ words, (∃ e, (Climbing.parse g { words }).1 = .ok (some e)) → g.Balanced words) ↔
      g.Stops closing) := by
  refine ⟨fun words h => Yard.balanced_of_accepts h, ?_, ?_⟩
  · intro hall
    by_contra hs
    obtain ⟨word, hv⟩ := g.exists_unknown
    obtain ⟨words, e, he, hb⟩ := Climbing.exists_stray_of_not_stops hc hg hs hv
    exact Grammar.not_balanced hb (hall words ⟨e, he⟩)
  · rintro hs words ⟨e, he⟩
    exact Climbing.balanced_of_stops hc hg hs he

theorem accepted_groups_balance_calculator :
    calculator.trailing? closeGroup = some ⟨closeGroup, -1, .behind .group⟩ ∧
      (⟨closeGroup, -1, .behind .group⟩ : Trailing).closesGroup = true ∧
      (∃ e, (Climbing.parse calculator
        { words := ["-", "(", "sin", "(", "1", ")", "!", ")"] }).1 = .ok (some e)) ∧
      calculator.Balanced ["-", "(", "sin", "(", "1", ")", "!", ")"] := by
  have hstops : calculator.Stops ⟨closeGroup, -1, .behind .group⟩ := by
    have hlow : ∀ op ∈ calculator.leading, (-1 : Priority) ≤ op.priority := by decide
    exact ⟨by decide, fun name op hl _ => hlow op (Grammar.leading?_eq_some hl).1⟩
  have hread : ∃ e, (Climbing.parse calculator
      { words := ["-", "(", "sin", "(", "1", ")", "!", ")"] }).1 = .ok (some e) := ⟨_, rfl⟩
  have hall := (accepted_groups_balance calculator _ rfl rfl).2.mpr hstops
  exact ⟨rfl, rfl, hread, hall _ hread⟩

/-- Here `)` binds tighter than the floor of a whole text. -/
def tightClosing : Grammar :=
  .ofList [.leading ⟨openGroup, 100, .group⟩, .trailing ⟨closeGroup, 1, .behind .group⟩]

theorem stray_closing_is_accepted :
    tightClosing.Opens openGroup ∧ tightClosing.Closes closeGroup ∧
      Text.words "1 )" = ["1", ")"] ∧
      (Climbing.parse tightClosing { words := ["1", ")"] }).1 = .ok (some (.value "1")) ∧
      ¬ tightClosing.Balanced ["1", ")"] ∧
      (Yard.parse tightClosing ["1", ")"]).1 = .error .unmatchedParentheses :=
  ⟨⟨_, rfl, rfl⟩, ⟨_, rfl, rfl⟩, by decide, rfl, Grammar.not_balanced rfl, rfl⟩

end InfixArithmetic

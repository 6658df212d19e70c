import InfixArithmetic.Parsing.Progress

/-!
One step of climbing at a time: what it does with the next word, by what that word means there.
-/

namespace InfixArithmetic

variable {W J : Type}

/-- A level of this floor ends before these words. -/
def Halts (g : Grammar W J) (floor : Priority) (words : List String) : Prop :=
  ∀ word rest, words = word :: rest → ∃ op, g.readOperation word = .ok op ∧ op.priority ≤ floor

theorem halts_nil (g : Grammar W J) (floor : Priority) : Halts g floor [] := by
  intro word rest h
  cases h

theorem halts_of_le {g : Grammar W J} {floor : Priority} {word : String} {op : Trailing W J}
    (h : g.readOperation word = .ok op) (hle : op.priority ≤ floor) (rest : List String) :
    Halts g floor (word :: rest) := by
  intro word' rest' hw
  obtain ⟨rfl, rfl⟩ := List.cons.inj hw
  exact ⟨op, h, hle⟩

namespace Climbing

theorem le_floorBehind {p q : Priority} (h : p < q) (a : Associativity) : p ≤ floorBehind q a := by
  cases a with
  | left => exact Int32.le_of_lt h
  | right =>
      rw [floorBehind]
      grind

variable {g : Grammar W J} {level : Priority → Cursor → Outcome W J} {floor : Priority}
  {count : Nat} {o : Outcome W J} {e : Expression W J} {c after : Cursor} {word : String}
  {rest : List String} {cause : SyntaxError}

theorem close_nil (hw : c.words = []) : close e c = (.error .unmatchedParentheses, c) := by
  simp [close, hw]

theorem close_closing (hw : c.words = closeGroup :: rest) :
    close e c = (.ok e, c.moveTo rest) := by
  simp [close, hw]

theorem andThen_eq_ok {next : Expression W J → Cursor → Outcome W J}
    (h : o.andThen next = (.ok e, after)) :
    ∃ found c, o = (.ok found, c) ∧ next found c = (.ok e, after) := by
  obtain ⟨r, c⟩ := o
  cases r with
  | error cause => cases h
  | ok found => exact ⟨found, c, rfl, h⟩

theorem map_eq_ok {f : Expression W J → Expression W J} (h : o.map f = (.ok e, after)) :
    ∃ found, o = (.ok found, after) ∧ f found = e := by
  obtain ⟨r, c⟩ := o
  cases r with
  | error cause => cases h
  | ok found =>
      cases h
      exact ⟨found, rfl, rfl⟩

theorem close_eq_ok {found : Expression W J} (h : close found c = (.ok e, after)) :
    c.words = closeGroup :: after.words ∧ found = e := by
  cases hw : c.words with
  | nil => simp [close_nil hw] at h
  | cons word rest =>
      by_cases hc : word = closeGroup
      · subst hc
        rw [close_closing hw] at h
        cases h
        exact ⟨rfl, rfl⟩
      · simp [close, hw, hc] at h

theorem nested_eq_ok {level : Cursor → Outcome W J} (h : nested level c = (.ok e, after)) :
    ∃ inner, level c.descend = (.ok e, inner) ∧ inner.words = after.words := by
  rw [nested] at h
  split at h
  · cases h
  · generalize level c.descend = o at h
    obtain ⟨r, inner⟩ := o
    cases h
    exact ⟨inner, rfl, rfl⟩

variable [Builds W J]

theorem operand_nil (hw : c.words = []) : operand g level c = (.error .unexpectedEnd, c) := by
  simp [operand, hw]

theorem operand_error (hw : c.words = word :: rest) (h : g.readOperand word = .error cause) :
    operand g level c = (.error cause, c.moveTo rest) := by
  simp [operand, hw, h]

theorem operand_value (hw : c.words = word :: rest) (h : g.readOperand word = .ok none) :
    operand g level c = (.ok (.value word), c.moveTo rest) := by
  simp [operand, hw, h]

theorem operand_group (hw : c.words = word :: rest) {op : Leading W}
    (h : g.readOperand word = .ok (some op)) (hg : op.opensGroup = true) :
    operand g level c = ((level 0 (c.moveTo rest)).andThen close).map (Builds.wrap op.wrap) := by
  simp [operand, hw, h, hg]

theorem operand_leading (hw : c.words = word :: rest) {op : Leading W}
    (h : g.readOperand word = .ok (some op)) (hg : op.opensGroup = false) :
    operand g level c = (level op.priority (c.moveTo rest)).map (Builds.wrap op.wrap) := by
  simp [operand, hw, h, hg]

theorem length_lt_of_operand (hl : Forward level)
    (h : operand g level c = (.ok e, after)) : after.words.length < c.words.length := by
  cases hw : c.words with
  | nil => simp [operand_nil hw] at h
  | cons word rest =>
      have hs := operand_words (g := g) hl hw
      rw [h] at hs
      exact Nat.lt_succ_of_le hs.length_le

theorem fold_behind {op : Trailing W J} {wrap : W} (hf : op.form = .behind wrap) :
    fold op level e c = (.ok (Builds.wrap wrap e), c) := by
  simp [fold, hf]

theorem fold_between {op : Trailing W J} {a : Associativity} {join : J}
    (hf : op.form = .between a join) :
    fold op level e c = (level (floorBehind op.priority a) c).map (Builds.join join e) := by
  simp [fold, hf]

theorem climb_nil (hw : c.words = []) : climb g level floor count e c = (.ok e, c) := by
  cases count <;> simp [climb, hw]

theorem climb_error (hw : c.words = word :: rest) (h : g.readOperation word = .error cause) :
    climb g level floor (count + 1) e c = (.error cause, c) := by
  simp [climb, hw, h]

theorem climb_stop (hw : c.words = word :: rest) {op : Trailing W J}
    (h : g.readOperation word = .ok op) (hle : op.priority ≤ floor) :
    climb g level floor (count + 1) e c = (.ok e, c) := by
  simp [climb, hw, h, hle]

theorem climb_fold (hw : c.words = word :: rest) {op : Trailing W J}
    (h : g.readOperation word = .ok op) (hlt : floor < op.priority) :
    climb g level floor (count + 1) e c =
      (fold op level e (c.moveTo rest)).andThen (climb g level floor count) := by
  have hn : ¬ op.priority ≤ floor := by simpa using hlt
  simp [climb, hw, h, hn]

theorem expression_succ (hd : c.depth < nestingLimit) (floor : Priority) (count : Nat) :
    expression g (count + 1) floor c =
      let o := (operand g (expression g count) c.descend).andThen
        (climb g (expression g count) floor count)
      (o.1, o.2.ascend) := by
  rw [expression, nested, if_neg (Nat.not_le.mpr hd)]

theorem expression_value (hd : c.depth < nestingLimit) (hw : c.words = word :: rest)
    (hv : g.readOperand word = .ok none) (hs : Halts g floor rest) (count : Nat) :
    expression g (count + 1) floor c = (.ok (.value word), c.moveTo rest) := by
  have hclimb : climb g (expression g count) floor count (.value word) (c.descend.moveTo rest) =
      (.ok (.value word), c.descend.moveTo rest) := by
    cases rest with
    | nil => exact climb_nil rfl
    | cons next rest =>
        obtain ⟨op, hr, hle⟩ := hs next rest rfl
        cases count with
        | zero => rfl
        | succ count => exact climb_stop rfl hr hle
  rw [expression_succ hd, operand_value (c := c.descend) hw hv]
  simp only [Outcome.andThen, hclimb]
  rfl

end Climbing

end InfixArithmetic

import InfixArithmetic.Evaluation
import InfixArithmetic.Proofs.ClimbingSteps
import InfixArithmetic.Proofs.Recording

/-!
Reading again and again.  Whatever comes of a reading, it closes the levels that it opened and
leaves an end of its words, so the next one starts afresh on what is left and in the end nothing is.
The record of a reading never shows more levels open at once than there may be (`Levels`).
-/

namespace InfixArithmetic

namespace Climbing

variable {W J : Type}

def Event.change : Event W J → Int
  | .opened => 1
  | .closed => -1
  | .folded _ => 0

@[simp]
def openLevels : List (Event W J) → Int
  | [] => 0
  | e :: events => e.change + openLevels events

@[simp]
theorem openLevels_append (past next : List (Event W J)) :
    openLevels (past ++ next) = openLevels past + openLevels next := by
  induction past with
  | nil => simp
  | cons e past ih => simp [ih, Int.add_assoc]

/-- Every level that is opened is closed again, and no more than so many are open at once. -/
structure Levels (room : Nat) (events : List (Event W J)) : Prop where
  balanced : openLevels events = 0
  within : ∀ past, past <+: events → 0 ≤ openLevels past ∧ openLevels past ≤ room

theorem prefix_append_cases {α : Type} {past xs ys : List α} (h : past <+: xs ++ ys) :
    past <+: xs ∨ ∃ later, past = xs ++ later ∧ later <+: ys := by
  obtain ⟨rest, h⟩ := h
  rcases List.append_eq_append_iff.mp h with ⟨later, rfl, -⟩ | ⟨later, rfl, rfl⟩
  · exact .inl (List.prefix_append _ _)
  · exact .inr ⟨later, rfl, List.prefix_append _ _⟩

theorem prefix_singleton_cases {α : Type} {past : List α} {x : α} (h : past <+: [x]) :
    past = [] ∨ past = [x] := by
  cases past with
  | nil => exact .inl rfl
  | cons y past =>
      obtain ⟨rfl, hrest⟩ := List.cons_prefix_cons.mp h
      exact .inr (congrArg _ (List.prefix_nil.mp hrest))

namespace Levels

variable {room : Nat} {events past next : List (Event W J)}

theorem nil : Levels room ([] : List (Event W J)) := by
  refine ⟨rfl, fun past h => ?_⟩
  obtain rfl := List.prefix_nil.mp h
  simp

theorem folded (f : Folding W J) : Levels room [.folded f] := by
  refine ⟨rfl, fun past h => ?_⟩
  rcases prefix_singleton_cases h with rfl | rfl <;> simp [Event.change]

theorem append (hpast : Levels room past) (hnext : Levels room next) :
    Levels room (past ++ next) := by
  refine ⟨by simp [hpast.balanced, hnext.balanced], fun some hsome => ?_⟩
  rcases prefix_append_cases hsome with h | ⟨later, rfl, h⟩
  · exact hpast.within some h
  · simpa [hpast.balanced] using hnext.within later h

theorem enclosed (h : Levels room events) :
    Levels (room + 1) (.opened :: events ++ [.closed]) := by
  refine ⟨by simp [Event.change, h.balanced], fun past hpast => ?_⟩
  rcases prefix_append_cases hpast with hbefore | ⟨later, rfl, hlater⟩
  · cases past with
    | nil => simp; omega
    | cons e past =>
        obtain ⟨rfl, hinner⟩ := List.cons_prefix_cons.mp hbefore
        have hpast := h.within past hinner
        simp only [openLevels, Event.change]
        omega
  · rcases prefix_singleton_cases hlater with rfl | rfl <;>
      simp [Event.change, h.balanced] <;> omega

end Levels

theorem kept_levels : Kept fun depth (events : List (Event W J)) =>
    depth ≤ nestingLimit → Levels (nestingLimit - depth) events where
  nil _ := .nil
  append hpast hnext hdepth := (hpast hdepth).append (hnext hdepth)
  folded _ _ := .folded _
  enclosed hlimit h _ := by
    have hroom := (h hlimit).enclosed
    rwa [Nat.sub_add_eq, Nat.sub_add_cancel (by omega)] at hroom

variable [Builds W J] {g : Grammar W J} {floor : Priority} {count : Nat} {e : Expression W J}
  {c : Cursor}

theorem expression_words (hd : c.depth < nestingLimit) {word : String} {rest : List String}
    (hw : c.words = word :: rest) : (expression g (count + 1) floor c).2.words <:+ rest := by
  have hf := forward_expression g count
  rw [expression_succ hd]
  exact (suffix_andThen (suffix_climb g hf floor count)).trans
    (operand_words (c := c.descend) hf hw)

theorem parse_nil (g : Grammar W J) (hw : c.words = []) : parse g c = (.ok none, c) := by
  simp [parse, hw]

theorem depth_parse (g : Grammar W J) (c : Cursor) : (parse g c).2.depth = c.depth := by
  have hdepth := depth_expression g c.words.length 0 c
  rw [parse]
  split
  · rfl
  · generalize expression g c.words.length 0 c = o at hdepth
    obtain ⟨r, after⟩ := o
    cases r with
    | error cause => exact hdepth
    | ok e => cases hw : after.words <;> simpa [hw, Cursor.moveTo] using hdepth

theorem parse_words (g : Grammar W J) (hd : c.depth < nestingLimit) {word : String}
    {rest : List String} (hw : c.words = word :: rest) : (parse g c).2.words <:+ rest := by
  have hwords : (expression g (rest.length + 1) 0 c).2.words <:+ rest := expression_words hd hw
  simp only [parse, hw, List.length_cons]
  generalize expression g (rest.length + 1) 0 c = o at hwords
  obtain ⟨r, after⟩ := o
  cases r with
  | error cause => exact hwords
  | ok e =>
      cases ha : after.words with
      | nil => simp [ha]
      | cons next last =>
          have hlast : last <:+ rest :=
            (List.suffix_cons next last).trans (by simpa [ha] using hwords)
          simpa [ha, Cursor.moveTo] using hlast

theorem words_of_parse (h : (parse g c).1 = .ok (some e)) : (parse g c).2.words = [] := by
  cases hw : c.words with
  | nil => simp [parse_nil g hw] at h
  | cons word rest =>
      simp only [parse, hw] at h ⊢
      generalize expression g _ 0 c = o at h ⊢
      obtain ⟨r, after⟩ := o
      cases r with
      | error cause => cases h
      | ok found =>
          cases ha : after.words with
          | nil => simp [ha]
          | cons next last => simp [ha] at h

def after (g : Grammar W J) : Nat → Cursor → Cursor
  | 0, c => c
  | count + 1, c => after g count (parse g c).2

theorem depth_after (g : Grammar W J) (count : Nat) (c : Cursor) :
    (after g count c).depth = c.depth := by
  induction count generalizing c with
  | zero => rfl
  | succ count ih => rw [after, ih, depth_parse]

theorem words_after (g : Grammar W J) (hd : c.depth < nestingLimit) (h : c.words.length ≤ count) :
    (after g count c).words = [] := by
  induction count generalizing c with
  | zero => exact List.eq_nil_of_length_eq_zero (Nat.le_zero.mp h)
  | succ count ih =>
      have hd' : (parse g c).2.depth < nestingLimit := by rwa [depth_parse]
      refine ih hd' ?_
      cases hw : c.words with
      | nil => simp [parse_nil g hw, hw]
      | cons word rest =>
          have hrest : rest.length ≤ count := by simpa [hw] using h
          exact Nat.le_trans (parse_words g hd hw).length_le hrest

theorem parseTimes_normal (g : Grammar W J) (count : Nat) (c : Cursor) :
    Mode.normal.parseTimes g count c =
      (List.range count).map fun k => (parse g (after g k c)).1 := by
  induction count generalizing c with
  | zero => rfl
  | succ count ih =>
      rw [List.range_succ_eq_map, List.map_cons, List.map_map, Mode.parseTimes]
      exact congrArg _ (ih _)

theorem readings_start_afresh (g : Grammar W J) (words : List String) (count : Nat) :
    let c := after g count { words }
    (Mode.normal.parseTimes g (count + 1) { words } =
      (List.range (count + 1)).map fun k => (parse g (after g k { words })).1) ∧
    c.depth = 0 ∧ (parse g c).2.depth = 0 ∧
    (Recorded.parse g c).outcome = parse g c ∧
    Levels nestingLimit (Recorded.parse g c).events ∧
    parse g c = parse g { words := c.words } ∧
    (parse g c).2.words <:+ c.words ∧
    (c.words ≠ [] → (parse g c).2.words.length < c.words.length) ∧
    (∀ e, (parse g c).1 = .ok (some e) → (parse g c).2.words = []) ∧
    (words.length ≤ count → parse g c = (.ok none, c)) := by
  intro c
  have hzero : 0 < nestingLimit := by decide
  have hdepth : c.depth = 0 := depth_after g count { words }
  have hlimit : c.depth < nestingLimit := hdepth ▸ hzero
  have hlevels := (kept_levels.parse g c).events (Nat.le_of_lt hlimit)
  rw [hdepth, Nat.sub_zero] at hlevels
  have hfresh : c = { words := c.words } := congrArg (Cursor.mk c.words) hdepth
  refine ⟨parseTimes_normal g _ _, hdepth, (depth_parse g c).trans hdepth,
    Recorded.outcome_parse g c, hlevels, congrArg (parse g) hfresh, ?_, ?_,
    fun e h => words_of_parse h, ?_⟩
  · cases hw : c.words with
    | nil => simp [parse_nil g hw, hw]
    | cons word rest => exact (parse_words g hlimit hw).trans (List.suffix_cons word rest)
  · intro hne
    obtain ⟨word, rest, hw⟩ := List.exists_cons_of_ne_nil hne
    rw [hw]
    exact Nat.lt_succ_of_le (parse_words g hlimit hw).length_le
  · intro h
    exact parse_nil g (words_after (c := { words }) g hzero h)

end Climbing

end InfixArithmetic

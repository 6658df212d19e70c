import InfixArithmetic.Proofs.ClimbingSteps

/-!
Derivations of what climbing accepts.  Every expression that is read without a fault comes from
rules that know neither cursors nor bounds, one for each way that an expression is made.
-/

namespace InfixArithmetic

variable {W J : Type} [Builds W J]

/-- A level of this floor reads the expression from the start of the first words, and has the second
words left; it need not be at its end. -/
inductive Climbs (g : Grammar W J) : Priority → List String → Expression W J → List String → Prop
  | value {floor : Priority} {word : String} {rest : List String}
      (h : g.readOperand word = .ok none) : Climbs g floor (word :: rest) (.value word) rest
  | leading {floor : Priority} {word : String} {rest after : List String} {op : Leading W}
      {e : Expression W J} (h : g.readOperand word = .ok (some op)) (hg : op.opensGroup = false)
      (he : Climbs g op.priority rest e after) (hs : Halts g op.priority after) :
      Climbs g floor (word :: rest) (Builds.wrap op.wrap e) after
  | group {floor : Priority} {word : String} {rest after : List String} {op : Leading W}
      {e : Expression W J} (h : g.readOperand word = .ok (some op)) (hg : op.opensGroup = true)
      (he : Climbs g 0 rest e (closeGroup :: after)) (hs : Halts g 0 (closeGroup :: after)) :
      Climbs g floor (word :: rest) (Builds.wrap op.wrap e) after
  | behind {floor : Priority} {words rest : List String} {word : String} {op : Trailing W J}
      {wrap : W} {e : Expression W J} (he : Climbs g floor words e (word :: rest))
      (h : g.readOperation word = .ok op) (hf : op.form = .behind wrap)
      (hlt : floor < op.priority) : Climbs g floor words (Builds.wrap wrap e) rest
  | between {floor : Priority} {words rest after : List String} {word : String} {op : Trailing W J}
      {a : Associativity} {join : J} {left right : Expression W J}
      (hl : Climbs g floor words left (word :: rest)) (h : g.readOperation word = .ok op)
      (hf : op.form = .between a join) (hlt : floor < op.priority)
      (hr : Climbs g (Climbing.floorBehind op.priority a) rest right after)
      (hs : Halts g (Climbing.floorBehind op.priority a) after) :
      Climbs g floor words (Builds.join join left right) after

namespace Climbing

variable {g : Grammar W J} {level : Priority → Cursor → Outcome W J} {floor : Priority}
  {bound : Nat}
  {e : Expression W J} {c after : Cursor}

def Derives (g : Grammar W J) (bound : Nat) (level : Priority → Cursor → Outcome W J) : Prop :=
  ∀ floor c e after, c.words.length ≤ bound → level floor c = (.ok e, after) →
    Climbs g floor c.words e after.words ∧ Halts g floor after.words

theorem climbs_operand (hl : Derives g bound level) (hb : c.words.length ≤ bound + 1)
    (h : operand g level c = (.ok e, after)) : Climbs g floor c.words e after.words := by
  cases hw : c.words with
  | nil => simp [operand_nil hw] at h
  | cons word rest =>
      have hrest : rest.length ≤ bound := by simpa [hw] using hb
      cases ho : g.readOperand word with
      | error cause => simp [operand_error hw ho] at h
      | ok found =>
          cases found with
          | none =>
              rw [operand_value hw ho] at h
              cases h
              exact .value ho
          | some op =>
              cases hg : op.opensGroup with
              | true =>
                  rw [operand_group hw ho hg] at h
                  obtain ⟨inner, hgroup, rfl⟩ := map_eq_ok h
                  obtain ⟨found, last, hin, hclose⟩ := andThen_eq_ok hgroup
                  obtain ⟨hlast, rfl⟩ := close_eq_ok hclose
                  obtain ⟨he, hs⟩ := hl _ (c.moveTo rest) _ _ hrest hin
                  rw [hlast] at he hs
                  exact .group ho hg he hs
              | false =>
                  rw [operand_leading hw ho hg] at h
                  obtain ⟨inner, hin, rfl⟩ := map_eq_ok h
                  obtain ⟨he, hs⟩ := hl _ (c.moveTo rest) _ _ hrest hin
                  exact .leading ho hg he hs

theorem climbs_fold (hl : Derives g bound level) {words rest : List String} {word : String}
    {found : Expression W J} (hfound : Climbs g floor words found (word :: rest))
    {op : Trailing W J}
    (hr : g.readOperation word = .ok op) (hlt : floor < op.priority) (hb : rest.length ≤ bound)
    (h : fold op level found (c.moveTo rest) = (.ok e, after)) :
    Climbs g floor words e after.words := by
  cases hf : op.form with
  | behind wrap =>
      rw [fold_behind hf] at h
      cases h
      exact .behind hfound hr hf hlt
  | between a join =>
      rw [fold_between hf] at h
      obtain ⟨right, hin, rfl⟩ := map_eq_ok h
      obtain ⟨hright, hs⟩ := hl _ (c.moveTo rest) _ _ hb hin
      exact .between hfound hr hf hlt hright hs

theorem climbs_climb (hl : Derives g bound level) (hforward : Forward level) {words : List String}
    {count : Nat} {found : Expression W J} (hfound : Climbs g floor words found c.words)
    (hn : c.words.length ≤ count) (hb : count ≤ bound)
    (h : climb g level floor count found c = (.ok e, after)) :
    Climbs g floor words e after.words ∧ Halts g floor after.words := by
  induction count generalizing found c with
  | zero =>
      have hw : c.words = [] := List.eq_nil_of_length_eq_zero (Nat.le_zero.mp hn)
      rw [climb_nil hw] at h
      cases h
      exact ⟨hfound, hw ▸ halts_nil g floor⟩
  | succ count ih =>
      cases hw : c.words with
      | nil =>
          rw [climb_nil hw] at h
          cases h
          exact ⟨hfound, hw ▸ halts_nil g floor⟩
      | cons word rest =>
          cases hr : g.readOperation word with
          | error cause => simp [climb_error hw hr] at h
          | ok op =>
              by_cases hle : op.priority ≤ floor
              · rw [climb_stop hw hr hle] at h
                cases h
                exact ⟨hfound, hw ▸ halts_of_le hr hle rest⟩
              · have hlt : floor < op.priority := by simpa using hle
                rw [climb_fold hw hr hlt] at h
                obtain ⟨next, c', hfold, hclimb⟩ := andThen_eq_ok h
                have hrest : rest.length ≤ count := by simpa [hw] using hn
                have hlen := (suffix_fold op hforward found (c.moveTo rest)).length_le
                rw [hfold] at hlen
                rw [hw] at hfound
                have hnext := climbs_fold hl hfound hr hlt (by omega) hfold
                exact ih hnext (Nat.le_trans hlen hrest) (by omega) hclimb

theorem derives_expression (g : Grammar W J) (count : Nat) :
    Derives g count (expression g count) := by
  induction count with
  | zero =>
      intro floor c e after _ h
      obtain ⟨inner, h, _⟩ := nested_eq_ok h
      cases h
  | succ count ih =>
      intro floor c e after hb h
      obtain ⟨inner, h, hinner⟩ := nested_eq_ok h
      obtain ⟨found, c', hoperand, hclimb⟩ := andThen_eq_ok h
      have hforward := forward_expression g count
      have hlen := length_lt_of_operand hforward hoperand
      have hfound : Climbs g floor c.words found c'.words :=
        climbs_operand (c := c.descend) ih hb hoperand
      rw [← hinner]
      exact climbs_climb ih hforward hfound (Nat.le_of_lt_succ (Nat.lt_of_lt_of_le hlen hb))
        (Nat.le_refl count) hclimb

theorem climbs_of_parse {words : List String}
    (h : (parse g { words }).1 = .ok (some e)) : Climbs g 0 words e [] := by
  cases words with
  | nil => cases h
  | cons word rest =>
      have hd := derives_expression g (word :: rest).length 0 { words := word :: rest }
      simp only [parse] at h
      generalize expression g _ 0 _ = o at h hd
      obtain ⟨r, after⟩ := o
      cases r with
      | error cause => cases h
      | ok found =>
          have he := (hd found after (Nat.le_refl _) rfl).1
          cases hw : after.words with
          | nil =>
              rw [hw] at he
              simp only [hw] at h
              cases h
              exact he
          | cons next left => simp [hw] at h

end Climbing

end InfixArithmetic

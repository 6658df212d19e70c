import InfixArithmetic.Parsing.Climbing

/-!
Reading an expression moves forward.  What it leaves is an end of the words it was given, an operand
takes at least one word, and so the number of words bounds the levels: a larger bound reads the same
(`expression_of_le`).
-/

namespace InfixArithmetic

namespace Climbing

variable {W J : Type}

def Forward (level : Priority → Cursor → Outcome W J) : Prop :=
  ∀ floor c, (level floor c).2.words <:+ c.words

theorem suffix_andThen {o : Outcome W J} {next : Expression W J → Cursor → Outcome W J}
    (h : ∀ e c, (next e c).2.words <:+ c.words) : (o.andThen next).2.words <:+ o.2.words := by
  obtain ⟨r, c⟩ := o
  cases r with
  | error cause => exact List.suffix_refl _
  | ok e => exact h e c

theorem suffix_nested {level : Cursor → Outcome W J} (h : ∀ c, (level c).2.words <:+ c.words)
    (c : Cursor) : (nested level c).2.words <:+ c.words := by
  rw [nested]
  split
  · exact List.suffix_refl _
  · exact h c.descend

theorem suffix_close (e : Expression W J) (c : Cursor) : (close e c).2.words <:+ c.words := by
  rw [close]
  split
  · exact List.suffix_refl _
  · rename_i hw
    rw [hw]
    split <;> exact List.suffix_cons _ _

def AgreeBelow (bound : Nat) (p q : Priority → Cursor → Outcome W J) : Prop :=
  ∀ floor c, c.words.length < bound → p floor c = q floor c

theorem nested_congr {p q : Cursor → Outcome W J} {c : Cursor} (h : p c.descend = q c.descend) :
    nested p c = nested q c := by
  simp only [nested, h]

variable [Builds W J]

theorem operand_words {g : Grammar W J} {level : Priority → Cursor → Outcome W J}
    (h : Forward level)
    {c : Cursor} {word : String} {rest : List String} (hc : c.words = word :: rest) :
    (operand g level c).2.words <:+ rest := by
  rw [operand]
  split
  · rename_i hw
    simp [hw] at hc
  · rename_i hw
    obtain ⟨rfl, rfl⟩ := List.cons.inj (hw ▸ hc)
    split
    · exact List.suffix_refl _
    · exact List.suffix_refl _
    · split
      · exact (suffix_andThen suffix_close).trans (h _ _)
      · exact h _ _

theorem suffix_operand (g : Grammar W J) {level : Priority → Cursor → Outcome W J}
    (h : Forward level)
    (c : Cursor) : (operand g level c).2.words <:+ c.words := by
  cases hc : c.words with
  | nil => simp [operand, hc]
  | cons word rest => exact (operand_words h hc).trans (List.suffix_cons _ _)

theorem suffix_fold (op : Trailing W J) {level : Priority → Cursor → Outcome W J}
    (h : Forward level)
    (e : Expression W J) (c : Cursor) : (fold op level e c).2.words <:+ c.words := by
  rw [fold]
  split
  · exact List.suffix_refl _
  · exact h _ _

theorem suffix_climb (g : Grammar W J) {level : Priority → Cursor → Outcome W J} (h : Forward level)
    (floor : Priority) (count : Nat) (e : Expression W J) (c : Cursor) :
    (climb g level floor count e c).2.words <:+ c.words := by
  induction count generalizing e c with
  | zero => exact List.suffix_refl _
  | succ count ih =>
      rw [climb]
      split
      · exact List.suffix_refl _
      · rename_i word rest hw
        split
        · exact List.suffix_refl _
        · rename_i op _
          split
          · exact List.suffix_refl _
          · have hf := (suffix_andThen ih).trans (suffix_fold op h e (c.moveTo rest))
            exact hf.trans (hw ▸ List.suffix_cons word rest)

theorem forward_expression (g : Grammar W J) (count : Nat) : Forward (expression g count) := by
  induction count with
  | zero => exact fun _ c => suffix_nested (fun _ => List.suffix_refl _) c
  | succ count ih =>
      intro floor c
      refine suffix_nested (fun c => ?_) c
      exact (suffix_andThen (suffix_climb g ih floor count)).trans (suffix_operand g ih c)

theorem operand_congr (g : Grammar W J) {p q : Priority → Cursor → Outcome W J} {c : Cursor}
    (h : AgreeBelow c.words.length p q) : operand g p c = operand g q c := by
  rw [operand, operand]
  split
  · rfl
  · rename_i word rest hw
    have hr : ∀ floor, p floor (c.moveTo rest) = q floor (c.moveTo rest) :=
      fun floor => h floor _ (by simp [Cursor.moveTo, hw])
    simp only [hr]

theorem fold_congr (op : Trailing W J) {p q : Priority → Cursor → Outcome W J} (e : Expression W J)
    {c : Cursor} (h : AgreeBelow (c.words.length + 1) p q) : fold op p e c = fold op q e c := by
  have hc : ∀ floor, p floor c = q floor c := fun floor => h floor c (Nat.lt_succ_self _)
  simp only [fold, hc]

theorem climb_congr (g : Grammar W J) {p q : Priority → Cursor → Outcome W J} (hq : Forward q)
    (floor : Priority) {m n : Nat} {e : Expression W J} {c : Cursor} (hm : c.words.length ≤ m)
    (hn : c.words.length ≤ n) (h : AgreeBelow c.words.length p q) :
    climb g p floor m e c = climb g q floor n e c := by
  induction m generalizing n e c with
  | zero =>
      have hw : c.words = [] := List.eq_nil_of_length_eq_zero (Nat.le_zero.mp hm)
      cases n <;> simp [climb, hw]
  | succ m ih =>
      cases hw : c.words with
      | nil => cases n <;> simp [climb, hw]
      | cons word rest =>
          have hl : c.words.length = rest.length + 1 := by simp [hw]
          obtain ⟨n, rfl⟩ : ∃ k, n = k + 1 := ⟨n - 1, by omega⟩
          simp only [climb, hw]
          split
          · rfl
          · rename_i op _
            split
            · rfl
            · have hmove : (c.moveTo rest).words.length = rest.length := rfl
              rw [fold_congr op e (q := q) (by rwa [hmove, ← hl])]
              have hs := suffix_fold op hq e (c.moveTo rest)
              generalize fold op q e (c.moveTo rest) = o at hs
              obtain ⟨r, after⟩ := o
              have hlen : after.words.length ≤ rest.length := hs.length_le
              cases r with
              | error cause => rfl
              | ok left =>
                  refine ih (by omega) (by omega) (fun f d hd => h f d (by omega))

theorem expression_of_le (g : Grammar W J) {m n : Nat} (floor : Priority) {c : Cursor}
    (hm : c.words.length ≤ m) (hn : c.words.length ≤ n) :
    expression g m floor c = expression g n floor c := by
  induction m generalizing n floor c with
  | zero =>
      have hw : c.words = [] := List.eq_nil_of_length_eq_zero (Nat.le_zero.mp hm)
      cases n with
      | zero => rfl
      | succ n => exact nested_congr (by simp [operand, Cursor.descend, hw, Outcome.andThen])
  | succ m ih =>
      cases n with
      | zero =>
          have hw : c.words = [] := List.eq_nil_of_length_eq_zero (Nat.le_zero.mp hn)
          exact nested_congr (by simp [operand, Cursor.descend, hw, Outcome.andThen])
      | succ n =>
          refine nested_congr ?_
          have hd : c.descend.words = c.words := rfl
          have agree : AgreeBelow c.words.length (expression g m) (expression g n) :=
            fun f d hlt => ih f (by omega) (by omega)
          rw [operand_congr g (q := expression g n) (by rwa [hd])]
          cases hw : c.words with
          | nil => simp [operand, hd, hw, Outcome.andThen]
          | cons word rest =>
              have hs := operand_words (g := g) (forward_expression g n) (hd.trans hw)
              generalize operand g (expression g n) c.descend = o at hs
              obtain ⟨r, after⟩ := o
              have hlen : after.words.length ≤ rest.length := hs.length_le
              have hl : c.words.length = rest.length + 1 := by simp [hw]
              cases r with
              | error cause => rfl
              | ok e =>
                  exact climb_congr g (forward_expression g n) floor (by omega) (by omega)
                    (fun f d hlt => agree f d (by omega))

end Climbing

end InfixArithmetic

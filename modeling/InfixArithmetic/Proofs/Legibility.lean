import InfixArithmetic.Proofs.Emission
import InfixArithmetic.Proofs.ModeAgreement
import InfixArithmetic.Proofs.UniqueReading
import Mathlib.Data.List.Forall2

/-!
The text of a postfix program.  Its words are the instructions' own, and each tells its instruction
but for plus and minus, which stand for a sign or for an operation between operands.  Two programs
of one text have as many signs, and are the same once these stand at the same places.
-/

namespace InfixArithmetic

open Grammar (calculator)

namespace Text

/-- Some characters, and none of them blank. -/
def Solid (word : String) : Prop :=
  word.toList ≠ [] ∧ ∀ c ∈ word.toList, isBlank c = false

theorem solid_iff {word : String} :
    Solid word ↔ word.toList ≠ [] ∧ word.toList.all (!isBlank ·) = true := by
  simp [Solid]

theorem solid_of_mem_words {word text : String} (h : word ∈ words text) : Solid word := by
  obtain ⟨run, hr, rfl⟩ := List.mem_map.mp h
  simpa [Solid] using runs_solid hr

theorem words_intercalate {ws : List String} (h : ∀ w ∈ ws, Solid w) :
    words (" ".intercalate ws) = ws := by
  have hsolid : ∀ w ∈ ws.map String.toList, w ≠ [] ∧ ∀ c ∈ w, isBlank c = false :=
    List.forall_mem_map.mpr h
  rw [words, String.toList_intercalate, show " ".toList = [' '] from rfl,
    runs_intercalate hsolid]
  simp

end Text

/-- An instruction for what a word means somewhere. -/
def Grammar.Means (g : Grammar) : Instruction → Prop
  | .value word => g.knows word = false
  | .literal _ => False
  | .operation op => g.Has op

namespace Yard

variable {g : Grammar} {y z : Yard} {word : String} {words : List String} {p : Program}

structure Meant (g : Grammar) (y : Yard) : Prop where
  pending : ∀ op ∈ y.pending, g.Has op
  emitted : ∀ i ∈ y.emitted, g.Means i

theorem Meant.flush (h : y.Meant g) {ops kept : List Operation} (hp : y.pending = ops ++ kept) :
    ∀ i ∈ ops.reverse.map Instruction.operation ++ y.emitted, g.Means i := by
  intro i hi
  rcases List.mem_append.mp hi with hi | hi
  · obtain ⟨op, hop, rfl⟩ := List.mem_map.mp hi
    exact h.pending op (by simp [hp, List.mem_reverse.mp hop])
  · exact h.emitted i hi

theorem Step.meant (hs : Step g y word z) (h : y.Meant g) : z.Meant g := by
  have leading {op : Leading} (hl : g.leading? word = some op) : g.Has (.leading op) := by
    rwa [Grammar.Has, (Grammar.leading?_eq_some hl).2]
  have trailing {op : Trailing} (ht : g.trailing? word = some op) : g.Has (.trailing op) := by
    rwa [Grammar.Has, (Grammar.trailing?_eq_some ht).2]
  cases hs with
  | value hy hk => exact ⟨h.pending, List.forall_mem_cons.mpr ⟨hk, h.emitted⟩⟩
  | leading hy hl => exact ⟨List.forall_mem_cons.mpr ⟨leading hl, h.pending⟩, h.emitted⟩
  | behind hy ht hf hc hp =>
      refine ⟨?_, List.forall_mem_cons.mpr ⟨trailing ht, h.flush hp⟩⟩
      intro op hm
      exact h.pending op (by simp [hp, hm])
  | between hy ht hf hp =>
      refine ⟨List.forall_mem_cons.mpr ⟨trailing ht, ?_⟩, h.flush hp⟩
      intro op hm
      exact h.pending op (by simp [hp, hm])
  | close hy ht hc hp =>
      refine ⟨?_, h.flush hp⟩
      intro op hm
      exact h.pending op (by simp [hp, hm])

theorem Reads.meant (h : Reads g {} words z) : z.Meant g := by
  refine h.invariant (P := fun _ y => y.Meant g) ?_ ?_
  · exact ⟨by simp, by simp⟩
  · intro ws u w v hu hs
    exact hs.meant hu

theorem parse_means (h : (parse g words).1 = .ok (some p)) : ∀ i ∈ p, g.Means i := by
  obtain ⟨z, hr, _, _, rfl⟩ := parse_eq_some_iff_ready.mp h
  intro i hm
  refine hr.meant.flush (List.append_nil z.pending).symm i ?_
  simpa [or_comm] using hm

theorem mem_words_of_parse (h : (parse g words).1 = .ok (some p))
    (hw : .value word ∈ p) : word ∈ words := by
  have hvalues : word ∈ p.values := List.mem_filterMap.mpr ⟨_, hw, rfl⟩
  rw [parse_values h] at hvalues
  exact List.mem_of_mem_filter hvalues

end Yard

def signNames : List String := ["+", "-"]

namespace Instruction

def signs : Instruction → Bool
  | .operation (.leading op) => op.name ∈ signNames
  | _ => false

def adds : Instruction → Bool
  | .operation (.trailing op) => op.form matches .between _ _ && op.name ∈ signNames
  | _ => false

/-- The same instruction, or a sign and the operation between operands of its name. -/
def Resembles (i j : Instruction) : Prop :=
  i.text = j.text ∧
    (i = j ∨ (i.signs = true ∧ j.adds = true) ∨ (i.adds = true ∧ j.signs = true))

variable {i j : Instruction}

theorem adds_of_signs (h : i.signs = true) : i.adds = false := by
  cases i with
  | operation op => cases op <;> simp_all [signs, adds]
  | value | literal => rfl

theorem arity_of_signs (h : i.signs = true) : i.arity = 1 := by
  cases i with
  | operation op =>
      cases op with
      | leading op => rfl
      | trailing op => cases h
  | value | literal => cases h

theorem arity_of_adds (h : i.adds = true) : i.arity = 2 := by
  cases i with
  | operation op =>
      cases op with
      | leading op => cases h
      | trailing op =>
          cases hf : op.form with
          | behind wrap => simp [adds, hf] at h
          | between a f => exact Operation.arity_between hf
  | value | literal => cases h

theorem Resembles.cases_arity (h : i.Resembles j) :
    i = j ∨
      (i.signs = true ∧ i.adds = false ∧ i.arity = 1 ∧
        j.signs = false ∧ j.adds = true ∧ j.arity = 2) ∨
      (i.signs = false ∧ i.adds = true ∧ i.arity = 2 ∧
        j.signs = true ∧ j.adds = false ∧ j.arity = 1) := by
  have exclusive {k : Instruction} (h : k.adds = true) : k.signs = false := by
    by_contra hs
    simp [adds_of_signs (by simpa using hs)] at h
  rcases h.2 with h | ⟨hi, hj⟩ | ⟨hi, hj⟩
  · exact .inl h
  · exact .inr (.inl ⟨hi, adds_of_signs hi, arity_of_signs hi, exclusive hj, hj, arity_of_adds hj⟩)
  · exact .inr (.inr ⟨exclusive hi, hi, arity_of_adds hi, hj, adds_of_signs hj, arity_of_signs hj⟩)

end Instruction

open Instruction (Resembles)

namespace Grammar

theorem signNames_of_both {a : Leading} {b : Trailing} (ha : calculator.Has (.leading a))
    (hb : calculator.Has (.trailing b)) (h : a.name = b.name) :
    (Instruction.operation (.leading a)).signs = true ∧
      (Instruction.operation (.trailing b)).adds = true := by
  have hshared : ∀ a ∈ calculator.leading, ∀ b ∈ calculator.trailing, a.name = b.name →
      (Instruction.operation (.leading a)).signs = true ∧
        (Instruction.operation (.trailing b)).adds = true := by decide
  exact hshared a (leading?_eq_some ha).1 b (trailing?_eq_some hb).1 h

theorem Has.knows {g : Grammar} {op : Operation} (h : g.Has op) : g.knows op.name = true := by
  cases op with
  | leading op => exact knows_of_leading? h
  | trailing op => exact knows_of_trailing? h

theorem Means.resembles {i j : Instruction} (hi : calculator.Means i) (hj : calculator.Means j)
    (h : i.text = j.text) : i.Resembles j := by
  refine ⟨h, ?_⟩
  cases i with
  | literal x => cases hi
  | value word =>
      cases j with
      | literal x => cases hj
      | value word' => exact .inl (congrArg Instruction.value h)
      | operation op =>
          have hk : calculator.knows word = true := by
            rw [show word = op.name from h]
            exact Has.knows hj
          simp [Means, hk] at hi
  | operation op =>
      cases j with
      | literal x => cases hj
      | value word =>
          have hk : calculator.knows word = true := by
            rw [← show op.name = word from h]
            exact Has.knows hi
          simp [Means, hk] at hj
      | operation op' =>
          cases op with
          | leading a =>
              cases op' with
              | leading b =>
                  have hn : a.name = b.name := h
                  have hab : some a = some b := hi.symm.trans (hn ▸ hj)
                  exact .inl (by rw [Option.some.inj hab])
              | trailing b => exact .inr (.inl (signNames_of_both hi hj h))
          | trailing a =>
              cases op' with
              | leading b => exact .inr (.inr (signNames_of_both hj hi h.symm).symm)
              | trailing b =>
                  have hn : a.name = b.name := h
                  have hab : some a = some b := hi.symm.trans (hn ▸ hj)
                  exact .inl (by rw [Option.some.inj hab])

theorem Means.solid {i : Instruction} (h : calculator.Means i)
    (hv : ∀ word, i = .value word → Text.Solid word) : Text.Solid i.text := by
  cases i with
  | literal x => cases h
  | value word => exact hv word rfl
  | operation op =>
      cases op with
      | leading op =>
          have hsolid : ∀ op ∈ calculator.leading,
              op.name.toList ≠ [] ∧ op.name.toList.all (!Text.isBlank ·) = true := by decide
          exact Text.solid_iff.mpr (hsolid op (leading?_eq_some h).1)
      | trailing op =>
          have hsolid : ∀ op ∈ calculator.trailing,
              op.name.toList ≠ [] ∧ op.name.toList.all (!Text.isBlank ·) = true := by decide
          exact Text.solid_iff.mpr (hsolid op (trailing?_eq_some h).1)

end Grammar

namespace Program

variable {p q : Program}

/-- The calculator reads every word of the program's text, and its operands are there. -/
structure Legible (p : Program) : Prop where
  means : ∀ i ∈ p, calculator.Means i
  solid : ∀ i ∈ p, Text.Solid i.text
  leaves : p.leaves 0 = some 1

theorem Legible.words_text (h : p.Legible) : Text.words p.text = p.map Instruction.text :=
  Text.words_intercalate (by simpa using h.solid)

theorem legible_of_parse {words : List String} (hw : ∀ w ∈ words, Text.Solid w)
    (h : (Yard.parse calculator words).1 = .ok (some p)) : p.Legible := by
  have hmeans := Yard.parse_means h
  refine ⟨hmeans, ?_, Yard.parse_leaves h⟩
  intro i hi
  refine (hmeans i hi).solid ?_
  rintro word rfl
  exact hw word (Yard.mem_words_of_parse h hi)

theorem resembles_of_map_text (hp : ∀ i ∈ p, calculator.Means i)
    (hq : ∀ i ∈ q, calculator.Means i) (h : p.map Instruction.text = q.map Instruction.text) :
    List.Forall₂ Resembles p q := by
  induction p generalizing q with
  | nil =>
      obtain rfl : q = [] := by simpa using h.symm
      exact .nil
  | cons i p ih =>
      cases q with
      | nil => simp at h
      | cons j q =>
          simp only [List.map_cons, List.cons.injEq] at h
          obtain ⟨hi, hp⟩ := List.forall_mem_cons.mp hp
          obtain ⟨hj, hq⟩ := List.forall_mem_cons.mp hq
          exact .cons (hi.resembles hj h.1) (ih hp hq h.2)

theorem Legible.resembles (hp : p.Legible) (hq : q.Legible) (h : p.text = q.text) :
    List.Forall₂ Resembles p q :=
  resembles_of_map_text hp.means hq.means (by rw [← hp.words_text, h, hq.words_text])

theorem map_eq_of_resembles {α : Type} {f : Instruction → α}
    (hf : ∀ i j : Instruction, i.Resembles j → f i = f j) (h : List.Forall₂ Resembles p q) :
    p.map f = q.map f := by
  induction h with
  | nil => rfl
  | cons hij _ ih => rw [List.map_cons, List.map_cons, hf _ _ hij, ih]

theorem operands_of_leaves {operands left : Nat} (h : p.leaves operands = some left) :
    p.countP (·.arity = 0) + operands = p.countP (·.arity = 2) + left := by
  induction p generalizing operands with
  | nil =>
      obtain rfl : operands = left := Option.some.inj h
      rfl
  | cons i p ih =>
      simp only [leaves] at h
      split at h
      · have hrest := ih h
        have ha : i.arity = 0 ∨ i.arity = 1 ∨ i.arity = 2 := by
          cases i with
          | value | literal => exact .inl rfl
          | operation op => exact .inr op.arity_cases
        rcases ha with ha | ha | ha <;> simp [ha] at hrest ⊢ <;> omega
      · cases h

theorem counts_of_resembles (h : List.Forall₂ Resembles p q) :
    p.countP (·.arity = 0) = q.countP (·.arity = 0) ∧
      p.countP (·.arity = 2) + p.countP (·.signs) =
        q.countP (·.arity = 2) + q.countP (·.signs) ∧
      p.countP (·.signs) + p.countP (·.adds) = q.countP (·.signs) + q.countP (·.adds) := by
  induction h with
  | nil => simp
  | cons hij _ ih =>
      obtain ⟨h0, h2, hs⟩ := ih
      rcases hij.cases_arity with rfl | ⟨hi, hi', hi2, hj, hj', hj2⟩ | ⟨hi, hi', hi2, hj, hj', hj2⟩
      · simp only [List.countP_cons]
        omega
      · simp [hi, hi', hi2, hj, hj', hj2]
        omega
      · simp [hi, hi', hi2, hj, hj', hj2]
        omega

theorem Legible.countP_signs (hp : p.Legible) (hq : q.Legible)
    (h : List.Forall₂ Resembles p q) : p.countP (·.signs) = q.countP (·.signs) := by
  obtain ⟨hvalues, hsum, _⟩ := counts_of_resembles h
  have hcount := operands_of_leaves hp.leaves
  have hcount' := operands_of_leaves hq.leaves
  omega

theorem eq_of_map_signs (h : List.Forall₂ Resembles p q)
    (hs : p.map Instruction.signs = q.map Instruction.signs) : p = q := by
  induction h with
  | nil => rfl
  | cons hij _ ih =>
      simp only [List.map_cons, List.cons.injEq] at hs
      rcases hij.cases_arity with rfl | ⟨hi, _, _, hj, _⟩ | ⟨hi, _, _, hj, _⟩
      · rw [ih hs.2]
      · simp [hi, hj] at hs
      · simp [hi, hj] at hs

theorem map_signs_of_no_signs (h : List.Forall₂ Resembles p q)
    (hp : p.countP (·.signs) = 0) (hq : q.countP (·.signs) = 0) :
    p.map Instruction.signs = q.map Instruction.signs := by
  have hnone {r : Program} (hr : r.countP (·.signs) = 0) :
      r.map Instruction.signs = r.map fun _ => false := by
    refine List.map_congr_left fun i hi => ?_
    simpa using List.countP_eq_zero.mp hr i hi
  rw [hnone hp, hnone hq]
  exact map_eq_of_resembles (fun _ _ _ => rfl) h

theorem map_signs_of_no_adds (h : List.Forall₂ Resembles p q)
    (hp : p.countP (·.adds) = 0) (hq : q.countP (·.adds) = 0) :
    p.map Instruction.signs = q.map Instruction.signs := by
  have hall {r : Program} (hr : r.countP (·.adds) = 0) :
      r.map Instruction.signs = r.map fun i => i.signs || i.adds := by
    refine List.map_congr_left fun i hi => ?_
    have ha : i.adds = false := by simpa using List.countP_eq_zero.mp hr i hi
    simp [ha]
  rw [hall hp, hall hq]
  refine map_eq_of_resembles (fun i j hij => ?_) h
  rcases hij.cases_arity with rfl | ⟨hi, _, _, _, hj, _⟩ | ⟨_, hi, _, hj, _⟩
  · rfl
  · simp [hi, hj]
  · simp [hi, hj]

/-- The signs stand at the same places, or signs and additions do not both occur. -/
def SameSigns (p q : Program) : Prop :=
  p.map Instruction.signs = q.map Instruction.signs ∨
    p.countP (·.signs) = 0 ∨ p.countP (·.adds) = 0

theorem Legible.eq_of_sameSigns (hp : p.Legible) (hq : q.Legible)
    (h : List.Forall₂ Resembles p q) (hs : SameSigns p q) : p = q := by
  have hsigns := hp.countP_signs hq h
  obtain ⟨_, _, hsum⟩ := counts_of_resembles h
  rcases hs with hs | hs | hs
  · exact eq_of_map_signs h hs
  · exact eq_of_map_signs h (map_signs_of_no_signs h hs (hsigns ▸ hs))
  · exact eq_of_map_signs h (map_signs_of_no_adds h hs (by omega))

end Program

end InfixArithmetic

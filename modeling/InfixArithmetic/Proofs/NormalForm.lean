import InfixArithmetic.Proofs.SquareWords
import InfixArithmetic.Token
import Mathlib.Data.List.Chain

/-!
The normal form of a text.  Its words are the text cut at blanks and around symbols (`cuts_iff`):
each is a symbol, or as long a run of other characters as there is at its place.  A text in normal
form is cut into the same words again, so its own normal form is itself.
-/

namespace InfixArithmetic

namespace Text

def isPlain (c : Char) : Bool :=
  !(isBlank c || isSymbol c)

theorem isPlain_eq_false {c : Char} : isPlain c = false ↔ isBlank c = true ∨ isSymbol c = true := by
  rw [isPlain, Bool.not_eq_false', Bool.or_eq_true]

theorem isPlain_of_isBlank {c : Char} (h : isBlank c = true) : isPlain c = false :=
  isPlain_eq_false.mpr (.inl h)

theorem isPlain_of_isSymbol {c : Char} (h : isSymbol c = true) : isPlain c = false :=
  isPlain_eq_false.mpr (.inr h)

theorem isBlank_of_isPlain {c : Char} (h : isPlain c = true) : isBlank c = false := by
  simp only [isPlain, Bool.not_eq_true', Bool.or_eq_false_iff] at h
  exact h.1

theorem isSymbol_of_isPlain {c : Char} (h : isPlain c = true) : isSymbol c = false := by
  simp only [isPlain, Bool.not_eq_true', Bool.or_eq_false_iff] at h
  exact h.2

theorem endsWord_cons (c : Char) (rest : List Char) : endsWord (c :: rest) = !isPlain c := by
  simp [endsWord, isPlain]

/-- Blanks fall away, a symbol is a word, and a run of plain characters is one where it ends. -/
inductive Cuts : List Char → List (List Char) → Prop
  | nil : Cuts [] []
  | blank {c : Char} {rest : List Char} {words : List (List Char)} (hc : isBlank c = true)
      (h : Cuts rest words) : Cuts (c :: rest) words
  | symbol {c : Char} {rest : List Char} {words : List (List Char)} (hc : isSymbol c = true)
      (h : Cuts rest words) : Cuts (c :: rest) ([c] :: words)
  | run {word rest : List Char} {words : List (List Char)} (hne : word ≠ [])
      (hword : ∀ c ∈ word, isPlain c = true) (hend : endsWord rest = true)
      (h : Cuts rest words) : Cuts (word ++ rest) (word :: words)

theorem continues_flatMap_setApart (cs : List Char) :
    continues (cs.flatMap setApart) = !endsWord cs := by
  cases cs with
  | nil => rfl
  | cons c rest =>
      rw [List.flatMap_cons, continues_setApart]
      rfl

theorem runs_blank {c : Char} (hc : isBlank c = true) (rest : List Char) :
    runs (setApart c ++ rest) = runs rest := by
  have hs : isSymbol c = false := by
    cases hs : isSymbol c with
    | false => rfl
    | true => rw [isBlank_eq_false_of_isSymbol hs] at hc; cases hc
  simp [setApart, hs, runs, hc]

theorem setApart_of_isPlain {c : Char} (hc : isPlain c = true) : setApart c = [c] := by
  simp [setApart, isSymbol_of_isPlain hc]

theorem flatMap_setApart_of_isPlain {word : List Char} (hword : ∀ c ∈ word, isPlain c = true) :
    word.flatMap setApart = word := by
  induction word with
  | nil => rfl
  | cons c word ih =>
      obtain ⟨hc, hword⟩ := List.forall_mem_cons.mp hword
      rw [List.flatMap_cons, setApart_of_isPlain hc, ih hword, List.singleton_append]

theorem runs_append_plain {word rest : List Char} (hne : word ≠ [])
    (hword : ∀ c ∈ word, isPlain c = true) (hrest : continues rest = false) :
    runs (word ++ rest) = word :: runs rest := by
  induction word with
  | nil => exact absurd rfl hne
  | cons c word ih =>
      obtain ⟨hc, hword⟩ := List.forall_mem_cons.mp hword
      cases word with
      | nil => simp [runs, isBlank_of_isPlain hc, hrest]
      | cons d word =>
          have hd := isBlank_of_isPlain (hword d List.mem_cons_self)
          have hnext := ih (by simp) hword
          rw [List.cons_append, runs, hnext]
          simp [isBlank_of_isPlain hc, continues, hd, extend]

theorem Cuts.runs_eq {cs : List Char} {words : List (List Char)} (h : Cuts cs words) :
    runs (cs.flatMap setApart) = words := by
  induction h with
  | nil => rfl
  | blank hc _ ih => rw [List.flatMap_cons, runs_blank hc, ih]
  | symbol hc _ ih => rw [List.flatMap_cons, runs_symbol hc, ih]
  | @run word rest words hne hword hend _ ih =>
      have hrest : continues (rest.flatMap setApart) = false := by
        rw [continues_flatMap_setApart, hend]
        rfl
      rw [List.flatMap_append, flatMap_setApart_of_isPlain hword, runs_append_plain hne hword hrest,
        ih]

theorem Cuts.extend {c : Char} {cs : List Char} {words : List (List Char)}
    (hc : isPlain c = true) (hcs : endsWord cs = false) (h : Cuts cs words) :
    Cuts (c :: cs) (extend c words) := by
  cases h with
  | nil => cases hcs
  | blank hd _ => simp [endsWord_cons, isPlain_of_isBlank hd] at hcs
  | symbol hd _ => simp [endsWord_cons, isPlain_of_isSymbol hd] at hcs
  | run hne hword hend h =>
      exact .run (List.cons_ne_nil _ _) (List.forall_mem_cons.mpr ⟨hc, hword⟩) hend h

theorem cuts_runs (cs : List Char) : Cuts cs (runs (cs.flatMap setApart)) := by
  induction cs with
  | nil => exact .nil
  | cons c cs ih =>
      rw [List.flatMap_cons]
      cases hc : isPlain c with
      | false =>
          rcases isPlain_eq_false.mp hc with hb | hs
          · rw [runs_blank hb]
            exact .blank hb ih
          · rw [runs_symbol hs]
            exact .symbol hs ih
      | true =>
          rw [setApart_of_isPlain hc, List.singleton_append, runs, isBlank_of_isPlain hc,
            continues_flatMap_setApart]
          cases hend : endsWord cs with
          | false => exact ih.extend hc hend
          | true =>
              have hplain : ∀ d ∈ [c], isPlain d = true := by simpa using hc
              exact .run (List.cons_ne_nil c []) hplain hend ih

theorem cuts_iff {cs : List Char} {words : List (List Char)} :
    Cuts cs words ↔ runs (cs.flatMap setApart) = words := by
  constructor
  · exact Cuts.runs_eq
  · rintro rfl
    exact cuts_runs cs

/-- A symbol on its own, or plain characters that go on neither before nor behind. -/
def IsWordAt (before word after : List Char) : Prop :=
  (∃ c, isSymbol c = true ∧ word = [c]) ∨
    (word ≠ [] ∧ (∀ c ∈ word, isPlain c = true) ∧ (∀ c ∈ before.getLast?, isPlain c = false) ∧
      ∀ c ∈ after.head?, isPlain c = false)

theorem IsWordAt.cons {c : Char} {before word after : List Char} (hc : isPlain c = false)
    (h : IsWordAt before word after) : IsWordAt (c :: before) word after := by
  refine h.imp_right ?_
  rintro ⟨hne, hword, hbefore, hafter⟩
  refine ⟨hne, hword, ?_, hafter⟩
  cases before with
  | nil => simpa using hc
  | cons d before => simpa using hbefore

theorem IsWordAt.append {first before word after : List Char}
    (hend : endsWord (before ++ (word ++ after)) = true) (h : IsWordAt before word after) :
    IsWordAt (first ++ before) word after := by
  refine h.imp_right ?_
  rintro ⟨hne, hword, hbefore, hafter⟩
  cases before with
  | nil =>
      -- plain characters cannot follow where a run has ended
      obtain ⟨c, rest, rfl⟩ := List.exists_cons_of_ne_nil hne
      simp [endsWord_cons, hword c List.mem_cons_self] at hend
  | cons d before => exact ⟨hne, hword, by simpa using hbefore, hafter⟩

theorem Cuts.place {cs : List Char} {words first rest : List (List Char)} {word : List Char}
    (h : Cuts cs words) (hw : words = first ++ word :: rest) :
    ∃ before after, cs = before ++ (word ++ after) ∧ Cuts before first ∧ Cuts after rest ∧
      IsWordAt before word after := by
  induction h generalizing first with
  | nil => simp at hw
  | blank hc _ ih =>
      obtain ⟨before, after, rfl, hfirst, hrest, hat⟩ := ih hw
      exact ⟨_ :: before, after, rfl, .blank hc hfirst, hrest, hat.cons (isPlain_of_isBlank hc)⟩
  | @symbol c tail words hc h ih =>
      cases first with
      | nil =>
          obtain ⟨rfl, rfl⟩ := List.cons.inj hw
          exact ⟨[], tail, rfl, .nil, h, .inl ⟨c, hc, rfl⟩⟩
      | cons start first =>
          obtain ⟨rfl, htail⟩ := List.cons.inj hw
          obtain ⟨before, after, rfl, hfirst, hrest, hat⟩ := ih htail
          exact ⟨c :: before, after, rfl, .symbol hc hfirst, hrest,
            hat.cons (isPlain_of_isSymbol hc)⟩
  | @run start tail words hne hword hend h ih =>
      cases first with
      | nil =>
          obtain ⟨rfl, rfl⟩ := List.cons.inj hw
          refine ⟨[], tail, rfl, .nil, h, .inr ⟨hne, hword, by simp, ?_⟩⟩
          intro c hc
          obtain ⟨rest, rfl⟩ := List.head?_eq_some_iff.mp hc
          simpa [endsWord_cons] using hend
      | cons found first =>
          obtain ⟨rfl, htail⟩ := List.cons.inj hw
          obtain ⟨before, after, rfl, hfirst, hrest, hat⟩ := ih htail
          refine ⟨start ++ before, after, by simp, ?_, hrest, hat.append hend⟩
          refine .run hne hword ?_ hfirst
          cases before with
          | nil => rfl
          | cons d before => simpa [endsWord_cons] using hend

def IsWord (word : List Char) : Prop :=
  IsWordAt [] word []

theorem IsWord.solid {word : List Char} (h : IsWord word) :
    word ≠ [] ∧ ∀ c ∈ word, isBlank c = false := by
  rcases h with ⟨c, hc, rfl⟩ | ⟨hne, hword, _⟩
  · simpa using isBlank_eq_false_of_isSymbol hc
  · exact ⟨hne, fun c hc => isBlank_of_isPlain (hword c hc)⟩

/-- Two characters that are no doubled star. -/
def Unsquared (c d : Char) : Prop :=
  ¬ (c = '*' ∧ d = '*')

theorem spellSquares_eq_self {cs : List Char} (h : cs.IsChain Unsquared) :
    spellSquares cs = cs := by
  fun_induction spellSquares cs with
  | case1 | case2 => rfl
  | case3 c d rest hcd => exact absurd hcd (List.isChain_cons_cons.mp h).1
  | case4 c d rest _ ih => rw [ih (List.isChain_cons_cons.mp h).2]

theorem IsWord.isChain {word : List Char} (h : IsWord word) : word.IsChain Unsquared := by
  rcases h with ⟨c, _, rfl⟩ | ⟨_, hword, _⟩
  · exact List.isChain_singleton c
  · clear * - hword
    induction word with
    | nil => exact List.isChain_nil
    | cons c word ih =>
        obtain ⟨hc, hword⟩ := List.forall_mem_cons.mp hword
        refine List.isChain_cons.mpr ⟨?_, ih hword⟩
        rintro d _ ⟨rfl, _⟩
        exact absurd hc (by decide)

end Text

open Text

end InfixArithmetic

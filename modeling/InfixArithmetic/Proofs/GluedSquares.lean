import InfixArithmetic.Proofs.SquareWords

/-!
The two of a square.  The normal form sets it apart where a word ends behind the doubled star, and
only there: before any other character it is the first digit of a longer word, and one word is lost.
-/

namespace InfixArithmetic

namespace Text

/-- Puts every symbol, and for every doubled star a caret and a two, between blanks. -/
def setPowersApart : List Char → List Char
  | [] => []
  | [c] => setApart c
  | c :: d :: rest =>
      if c = '*' ∧ d = '*' then ' ' :: '^' :: ' ' :: '2' :: ' ' :: setPowersApart rest
      else setApart c ++ setPowersApart (d :: rest)

def powerWords (text : String) : List String :=
  words (String.ofList (setPowersApart text.toList))

def withTwo : List String → List String
  | [] => ["2"]
  | word :: words => ("2" ++ word) :: words

/-- The words `^` and `2` for every square, the two on the next word where it ends none. -/
def spellWords : List String → List Bool → List String
  | [], _ => []
  | word :: words, ends =>
      if word = "**" then
        "^" :: (if ends.headD true then "2" :: spellWords words ends.tail
          else withTwo (spellWords words ends.tail))
      else word :: spellWords words ends

theorem map_extend_two (runs : List (List Char)) :
    (extend '2' runs).map String.ofList = withTwo (runs.map String.ofList) := by
  cases runs with
  | nil => rfl
  | cons run runs =>
      have htwo : String.ofList ('2' :: run) = "2" ++ String.ofList run :=
        String.toList_injective (by simp)
      simp [extend, withTwo, htwo]

theorem map_spellRuns (runs : List (List Char)) (ends : List Bool) :
    (spellRuns runs ends).map String.ofList = spellWords (runs.map String.ofList) ends := by
  induction runs generalizing ends with
  | nil => rfl
  | cons run runs ih =>
      by_cases hr : run = ['*', '*']
      · subst hr
        have hstars : String.ofList ['*', '*'] = "**" := rfl
        rw [List.map_cons, spellRuns, spellWords, if_pos rfl, if_pos hstars]
        cases ends.headD true with
        | true => simp [ih]
        | false => simp [map_extend_two, ih]
      · have hw : String.ofList run ≠ "**" := by
          intro he
          exact hr (by simpa using congrArg String.toList he)
        rw [spellRuns_of_ne hr, List.map_cons, List.map_cons, spellWords, if_neg hw, ih]

theorem words_normalize_eq (text : String) :
    words (normalize text) = spellWords (squareWords text) (squareEnds text.toList) := by
  rw [words_normalize, runs_spellSquares, map_spellRuns, squareWords, words_ofList]

theorem continues_setPowersApart (cs : List Char) :
    continues (setPowersApart cs) = !endsWord cs := by
  fun_cases setPowersApart cs with
  | case1 => rfl
  | case2 c => simpa [endsWord] using continues_setApart c []
  | case3 c d rest h =>
      obtain ⟨rfl, rfl⟩ := h
      simp [endsWord, isSymbol_star, continues]
      decide
  | case4 c d rest h => exact continues_setApart c _

theorem runs_power (rest : List Char) :
    runs (setPowersApart ('*' :: '*' :: rest)) = ['^'] :: ['2'] :: runs (setPowersApart rest) := by
  have hset : setPowersApart ('*' :: '*' :: rest) =
      [' ', '^', ' ', '2'] ++ ' ' :: setPowersApart rest := by
    simp [setPowersApart]
  rw [hset, runs_append_blank (by decide)]
  rfl

theorem runs_setPowersApart (cs : List Char) :
    runs (setPowersApart cs) = spellRuns (runs (setSquaresApart cs)) [] := by
  have hcont (cs : List Char) :
      continues (setPowersApart cs) = continues (setSquaresApart cs) := by
    rw [continues_setPowersApart, continues_setSquaresApart]
  fun_induction setSquaresApart cs with
  | case1 => rfl
  | case2 c =>
      have hset : runs (setApart c ++ []) =
          spellRuns (runs (setApart c ++ setSquaresApart [])) [] :=
        runs_setApart c rfl rfl
      simpa [setPowersApart, setSquaresApart] using hset
  | case3 c d rest hcd ih =>
      obtain ⟨rfl, rfl⟩ := hcd
      rw [runs_power, ih]
      have hsquare := runs_square rest
      simp only [setSquaresApart, and_self, if_true] at hsquare
      simp [hsquare, spellRuns]
  | case4 c d rest hcd ih =>
      rw [setPowersApart, if_neg hcd]
      exact runs_setApart c (hcont _) ih

theorem powerWords_eq (text : String) :
    powerWords text = (squareWords text).flatMap spellSquare := by
  rw [powerWords, words_ofList, runs_setPowersApart, spellRuns_of_all rfl, squareWords,
    words_ofList, List.map_flatMap, List.flatMap_map]
  simp only [map_spellRun]

theorem length_extend {runs : List (List Char)} (h : runs ≠ []) (c : Char) :
    (extend c runs).length = runs.length := by
  cases runs with
  | nil => exact absurd rfl h
  | cons run runs => rfl

/-- What a character adds to the words behind it depends on how they start alone. -/
theorem length_runs_setApart (c : Char) {start other : List Char}
    (h : continues start = continues other) :
    (runs (setApart c ++ start)).length + (runs other).length =
      (runs (setApart c ++ other)).length + (runs start).length := by
  cases hs : isSymbol c with
  | true =>
      simp only [runs_symbol hs, List.length_cons]
      omega
  | false =>
      have hset (rest : List Char) : setApart c ++ rest = c :: rest := by simp [setApart, hs]
      rw [hset, hset]
      cases hb : isBlank c with
      | true =>
          simp only [runs, hb, if_true]
          omega
      | false =>
          cases ho : continues other with
          | false =>
              simp [runs, hb, h, ho]
              omega
          | true =>
              have hstart := length_extend (runs_ne_nil (h.trans ho)) c
              have hother := length_extend (runs_ne_nil ho) c
              simp [runs, hb, h, ho, hstart, hother]
              omega

theorem length_runs_spellSquares (cs : List Char) :
    (runs ((spellSquares cs).flatMap setApart)).length + (squareEnds cs).count false =
      (runs (setPowersApart cs)).length := by
  fun_induction squareEnds cs with
  | case1 => rfl
  | case2 c => simp [spellSquares, setPowersApart]
  | case3 c d rest hcd ih =>
      obtain ⟨rfl, rfl⟩ := hcd
      rw [runs_spellSquares_square, runs_power]
      cases he : endsWord rest with
      | true =>
          simp
          omega
      | false =>
          have hcont : continues ((spellSquares rest).flatMap setApart) = true := by
            rw [continues_spellSquares, he]
            rfl
          simp [length_extend (runs_ne_nil hcont)]
          omega
  | case4 c d rest hcd ih =>
      have hcont : continues ((spellSquares (d :: rest)).flatMap setApart) =
          continues (setPowersApart (d :: rest)) := by
        rw [continues_spellSquares, continues_setPowersApart]
      have hstep := length_runs_setApart c hcont
      rw [spellSquares, if_neg hcd, setPowersApart, if_neg hcd, List.flatMap_cons]
      omega

end Text

open Text

theorem squares_spell_separate_words_iff (text : String) :
    words (normalize text) = spellWords (squareWords text) (squareEnds text.toList) ∧
      (words (normalize text)).length + (squareEnds text.toList).count false =
        (powerWords text).length ∧
      (words (normalize text) = powerWords text ↔ squaresEndWords text.toList = true) := by
  have hlength : (words (normalize text)).length + (squareEnds text.toList).count false =
      (powerWords text).length := by
    rw [words_normalize, powerWords, words_ofList, List.length_map, List.length_map]
    exact length_runs_spellSquares text.toList
  refine ⟨words_normalize_eq text, hlength, ?_, ?_⟩
  · intro h
    have hnone : (squareEnds text.toList).count false = 0 := by
      rw [h] at hlength
      omega
    rw [← squareEnds_all, List.all_eq_true]
    intro last hm
    cases last with
    | true => rfl
    | false => exact absurd hm (List.count_eq_zero.mp hnone)
  · intro h
    rw [words_normalize_squares h, powerWords_eq]

theorem square_runs_into_digits :
    squareEnds "2**3".toList = [false] ∧
      words (normalize "2**3") = ["2", "^", "23"] ∧
      powerWords "2**3" = ["2", "^", "2", "3"] ∧
      ¬ ∀ text, words (normalize text) = powerWords text := by
  refine ⟨by decide, by decide, by decide, ?_⟩
  intro h
  exact absurd (h "2**3") (by decide)

end InfixArithmetic

import InfixArithmetic.Text.Spacing

/-!
Squares among the words of a text.  The words of the normal form are the words of the text with its
squares and symbols set apart, a power of two for each square (`runs_spellSquares`).  A two stands
on its own where the doubled star ends a word, and otherwise begins the word behind it.
-/

namespace InfixArithmetic.Text

/-- Puts every symbol, and first every doubled star, between blanks. -/
def setSquaresApart : List Char → List Char
  | [] => []
  | [c] => setApart c
  | c :: d :: rest =>
      if c = '*' ∧ d = '*' then ' ' :: '*' :: '*' :: ' ' :: setSquaresApart rest
      else setApart c ++ setSquaresApart (d :: rest)

def squareWords (text : String) : List String :=
  words (String.ofList (setSquaresApart text.toList))

def endsWord : List Char → Bool
  | [] => true
  | c :: _ => isBlank c || isSymbol c

/-- Behind every doubled star, taken from the left, comes a blank, a symbol or the end. -/
def squaresEndWords : List Char → Bool
  | [] | [_] => true
  | c :: d :: rest =>
      if c = '*' ∧ d = '*' then endsWord rest && squaresEndWords rest
      else squaresEndWords (d :: rest)

/-- For every doubled star, taken from the left, whether a word ends behind it. -/
def squareEnds : List Char → List Bool
  | [] | [_] => []
  | c :: d :: rest =>
      if c = '*' ∧ d = '*' then endsWord rest :: squareEnds rest
      else squareEnds (d :: rest)

def spellSquare (word : String) : List String :=
  if word = "**" then ["^", "2"] else [word]

def spellRun (run : List Char) : List (List Char) :=
  if run = ['*', '*'] then [['^'], ['2']] else [run]

/-- A power of two for every square, with the two on the next run where no word ends. -/
def spellRuns : List (List Char) → List Bool → List (List Char)
  | [], _ => []
  | run :: runs, ends =>
      if run = ['*', '*'] then
        ['^'] :: (if ends.headD true then ['2'] :: spellRuns runs ends.tail
          else extend '2' (spellRuns runs ends.tail))
      else run :: spellRuns runs ends

theorem isSymbol_star : isSymbol '*' = true := by decide

theorem continues_setApart (c : Char) (rest : List Char) :
    continues (setApart c ++ rest) = !(isBlank c || isSymbol c) := by
  rw [setApart]
  cases hs : isSymbol c with
  | true => simp [continues]; decide
  | false => simp [continues]

theorem continues_setSquaresApart (cs : List Char) :
    continues (setSquaresApart cs) = !endsWord cs := by
  fun_cases setSquaresApart cs with
  | case1 => rfl
  | case2 c => simpa [endsWord] using continues_setApart c []
  | case3 c d rest h =>
      obtain ⟨rfl, rfl⟩ := h
      simp [endsWord, isSymbol_star, continues]
      decide
  | case4 c d rest h => exact continues_setApart c _

theorem continues_spellSquares (cs : List Char) :
    continues ((spellSquares cs).flatMap setApart) = !endsWord cs := by
  fun_cases spellSquares cs with
  | case1 => rfl
  | case2 c => simpa [endsWord] using continues_setApart c []
  | case3 c d rest h =>
      obtain ⟨rfl, rfl⟩ := h
      have hcaret : isSymbol '^' = true := by decide
      rw [List.flatMap_cons, continues_setApart]
      simp [endsWord, isSymbol_star, hcaret]
  | case4 c d rest h => exact continues_setApart c _

theorem head?_runs {c : Char} (hc : isBlank c = false) (rest : List Char) :
    ∃ w ws, runs (c :: rest) = (c :: w) :: ws := by
  simp only [runs, hc, Bool.false_eq_true, if_false]
  split
  · cases runs rest with
    | nil => exact ⟨[], [], rfl⟩
    | cons w ws => exact ⟨w, ws, rfl⟩
  · exact ⟨[], _, rfl⟩

theorem runs_setSquaresApart {cs : List Char} (h : continues (setSquaresApart cs) = true) :
    ∃ b w ws, b ≠ '*' ∧ runs (setSquaresApart cs) = (b :: w) :: ws := by
  have plain {c : Char} {rest : List Char} (hc : continues (setApart c ++ rest) = true) :
      ∃ b w ws, b ≠ '*' ∧ runs (setApart c ++ rest) = (b :: w) :: ws := by
    simp only [continues_setApart, Bool.not_eq_true', Bool.or_eq_false_iff] at hc
    obtain ⟨w, ws, hr⟩ := head?_runs hc.1 rest
    refine ⟨c, w, ws, ?_, by simpa [setApart, hc.2] using hr⟩
    rintro rfl
    exact absurd hc.2 (by decide)
  fun_cases setSquaresApart cs with
  | case1 => simp [setSquaresApart, continues] at h
  | case2 c =>
      rw [setSquaresApart, ← List.append_nil (setApart c)] at h
      simpa using plain h
  | case3 c d rest hcd =>
      rw [continues_setSquaresApart] at h
      obtain ⟨rfl, rfl⟩ := hcd
      simp [endsWord, isSymbol_star] at h
  | case4 c d rest hcd => exact plain (by simpa [setSquaresApart, hcd] using h)

theorem setSquaresApart_cons {c : Char} (hc : c ≠ '*') (cs : List Char) :
    setSquaresApart (c :: cs) = setApart c ++ setSquaresApart cs := by
  cases cs with
  | nil => simp [setSquaresApart]
  | cons d rest => simp [setSquaresApart, hc]

theorem squaresEndWords_cons {c : Char} (hc : c ≠ '*') (cs : List Char) :
    squaresEndWords (c :: cs) = squaresEndWords cs := by
  cases cs with
  | nil => rfl
  | cons d rest => simp [squaresEndWords, hc]

theorem squareEnds_all (cs : List Char) : (squareEnds cs).all id = squaresEndWords cs := by
  fun_induction squareEnds cs with
  | case1 | case2 => rfl
  | case3 c d rest hcd ih => simp [squaresEndWords, hcd, ih]
  | case4 c d rest hcd ih => simpa [squaresEndWords, hcd] using ih

theorem spellRuns_of_ne {run : List Char} (h : run ≠ ['*', '*']) (rest : List (List Char))
    (ends : List Bool) : spellRuns (run :: rest) ends = run :: spellRuns rest ends := by
  simp [spellRuns, h]

theorem spellRuns_of_head {b : Char} (hb : b ≠ '*') (w : List Char) (rest : List (List Char))
    (ends : List Bool) : spellRuns ((b :: w) :: rest) ends = (b :: w) :: spellRuns rest ends :=
  spellRuns_of_ne (by simp [hb]) rest ends

theorem spellRuns_of_all {ends : List Bool} (h : ends.all id = true) (rest : List (List Char)) :
    spellRuns rest ends = rest.flatMap spellRun := by
  induction rest generalizing ends with
  | nil => rfl
  | cons run rest ih =>
      by_cases hr : run = ['*', '*']
      · cases ends with
        | nil =>
            have hrest : spellRuns rest [] = rest.flatMap spellRun := ih rfl
            simp [spellRuns, spellRun, hr, hrest]
        | cons last ends =>
            simp only [List.all_cons, id, Bool.and_eq_true] at h
            simp [spellRuns, spellRun, hr, h.1, ih h.2]
      · rw [spellRuns_of_ne hr, ih h]
        simp [spellRun, hr]

theorem runs_plain {c : Char} (hb : isBlank c = false) (hs : isSymbol c = false)
    {spelled cs : List Char} {ends : List Bool}
    (hc : continues spelled = continues (setSquaresApart cs))
    (h : runs spelled = spellRuns (runs (setSquaresApart cs)) ends) :
    runs (c :: spelled) = spellRuns (runs (c :: setSquaresApart cs)) ends := by
  have hstar : c ≠ '*' := by
    rintro rfl
    exact absurd hs (by decide)
  simp only [runs, hb, hc, Bool.false_eq_true, if_false]
  cases hcont : continues (setSquaresApart cs) with
  | false => simp [h, spellRuns_of_head hstar]
  | true =>
      obtain ⟨b, w, ws, hbs, hr⟩ := runs_setSquaresApart hcont
      simp [h, hr, extend, spellRuns_of_head hstar, spellRuns_of_head hbs]

theorem runs_symbol {c : Char} (hs : isSymbol c = true) (rest : List Char) :
    runs (setApart c ++ rest) = [c] :: runs rest := by
  have hc := isBlank_eq_false_of_isSymbol hs
  have hblank : isBlank ' ' = true := by decide
  simp [setApart, hs, runs, hblank, hc, continues]

theorem runs_setApart (c : Char) {spelled cs : List Char} {ends : List Bool}
    (hc : continues spelled = continues (setSquaresApart cs))
    (h : runs spelled = spellRuns (runs (setSquaresApart cs)) ends) :
    runs (setApart c ++ spelled) = spellRuns (runs (setApart c ++ setSquaresApart cs)) ends := by
  cases hs : isSymbol c with
  | true => simp [runs_symbol hs, h, spellRuns_of_ne]
  | false =>
      have hset (rest : List Char) : setApart c ++ rest = c :: rest := by simp [setApart, hs]
      rw [hset, hset]
      cases hb : isBlank c with
      | true => simpa [runs, hb] using h
      | false => exact runs_plain hb hs hc h

theorem runs_square (rest : List Char) :
    runs (setSquaresApart ('*' :: '*' :: rest)) = ['*', '*'] :: runs (setSquaresApart rest) := by
  have hset : setSquaresApart ('*' :: '*' :: rest) =
      [' ', '*', '*'] ++ ' ' :: setSquaresApart rest := by
    simp [setSquaresApart]
  rw [hset, runs_append_blank (by decide)]
  rfl

theorem runs_spellSquares_square (rest : List Char) :
    runs ((spellSquares ('*' :: '*' :: rest)).flatMap setApart) =
      ['^'] :: (if endsWord rest then ['2'] :: runs ((spellSquares rest).flatMap setApart)
        else extend '2' (runs ((spellSquares rest).flatMap setApart))) := by
  have htwo : isBlank '2' = false ∧ isSymbol '2' = false := by decide
  have hspell : (spellSquares ('*' :: '*' :: rest)).flatMap setApart =
      setApart '^' ++ '2' :: (spellSquares rest).flatMap setApart := by
    simp [spellSquares, setApart, htwo.2]
  rw [hspell, runs_symbol (by decide), runs, htwo.1, continues_spellSquares]
  cases endsWord rest <;> rfl

theorem runs_spellSquares (cs : List Char) :
    runs ((spellSquares cs).flatMap setApart) =
      spellRuns (runs (setSquaresApart cs)) (squareEnds cs) := by
  have hcont (cs : List Char) : continues ((spellSquares cs).flatMap setApart) =
      continues (setSquaresApart cs) := by
    rw [continues_spellSquares, continues_setSquaresApart]
  fun_induction squareEnds cs with
  | case1 => rfl
  | case2 c =>
      have hset : runs (setApart c ++ []) =
          spellRuns (runs (setApart c ++ setSquaresApart [])) [] :=
        runs_setApart c rfl rfl
      simpa [spellSquares, setSquaresApart] using hset
  | case3 c d rest hcd ih =>
      obtain ⟨rfl, rfl⟩ := hcd
      rw [runs_spellSquares_square, runs_square, ih]
      simp [spellRuns]
  | case4 c d rest hcd ih =>
      have hspell : (spellSquares (c :: d :: rest)).flatMap setApart =
          setApart c ++ (spellSquares (d :: rest)).flatMap setApart := by
        simp [spellSquares, hcd]
      have hset : setSquaresApart (c :: d :: rest) =
          setApart c ++ setSquaresApart (d :: rest) := by
        simp [setSquaresApart, hcd]
      rw [hspell, hset]
      exact runs_setApart c (hcont _) ih

theorem map_spellRun (run : List Char) :
    (spellRun run).map String.ofList = spellSquare (String.ofList run) := by
  by_cases h : run = ['*', '*']
  · subst h
    rfl
  · have hne : String.ofList run ≠ "**" := by
      intro he
      exact h (by simpa using congrArg String.toList he)
    simp [spellRun, spellSquare, h, hne]

theorem words_normalize_squares {text : String} (h : squaresEndWords text.toList = true) :
    words (normalize text) = (squareWords text).flatMap spellSquare := by
  rw [words_normalize, runs_spellSquares, spellRuns_of_all ((squareEnds_all _).trans h),
    squareWords, words_ofList, List.map_flatMap, List.flatMap_map]
  simp only [map_spellRun]

end InfixArithmetic.Text

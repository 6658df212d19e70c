import InfixArithmetic.Text.Blank
import InfixArithmetic.Text.Pieces

/-!
The words of a text: its maximal runs of characters that are not blank.  No other character is
lost (`flatten_runs`), no word is empty or holds a blank (`runs_solid`), and a blank splits a text
into two that have their words on their own (`runs_append_blank`).
-/

namespace InfixArithmetic.Text

def continues : List Char → Bool
  | [] => false
  | c :: _ => !isBlank c

def runs : List Char → List (List Char)
  | [] => []
  | c :: rest =>
      if isBlank c then runs rest
      else if continues rest then extend c (runs rest)
      else [c] :: runs rest

def words (text : String) : List String :=
  (runs text.toList).map String.ofList

theorem flatten_runs (cs : List Char) : (runs cs).flatten = cs.filter (!isBlank ·) := by
  induction cs with
  | nil => rfl
  | cons c rest ih =>
      cases hc : isBlank c with
      | true => simp [runs, hc, ih]
      | false =>
          cases hr : continues rest <;> simp [runs, hc, hr, flatten_extend, ih]

theorem runs_solid {cs w : List Char} (hw : w ∈ runs cs) :
    w ≠ [] ∧ ∀ c ∈ w, isBlank c = false := by
  induction cs generalizing w with
  | nil => simp [runs] at hw
  | cons c rest ih =>
      cases hc : isBlank c with
      | true => exact ih (by simpa [runs, hc] using hw)
      | false =>
          cases hr : continues rest with
          | false =>
              rcases List.mem_cons.mp (by simpa [runs, hc, hr] using hw) with rfl | hw
              · simp [hc]
              · exact ih hw
          | true =>
              have hw : w ∈ extend c (runs rest) := by simpa [runs, hc, hr] using hw
              cases hrest : runs rest with
              | nil =>
                  obtain rfl : w = [c] := by simpa [extend, hrest] using hw
                  simp [hc]
              | cons v vs =>
                  rcases List.mem_cons.mp (by simpa [extend, hrest] using hw) with rfl | hw
                  · have hv := ih (w := v) (by simp [hrest])
                    exact ⟨by simp, by simpa [hc] using hv.2⟩
                  · exact ih (by simp [hrest, hw])

theorem runs_ne_nil {cs : List Char} (h : continues cs = true) : runs cs ≠ [] := by
  cases cs with
  | nil => simp [continues] at h
  | cons c rest =>
      have hc : isBlank c = false := by simpa [continues] using h
      cases hr : continues rest with
      | false => simp [runs, hc, hr]
      | true => cases hw : runs rest <;> simp [runs, hc, hr, extend, hw]

theorem runs_append_blank {b : Char} (hb : isBlank b = true) (start rest : List Char) :
    runs (start ++ b :: rest) = runs start ++ runs rest := by
  induction start with
  | nil => simp [runs, hb]
  | cons c start ih =>
      have hs : continues (start ++ b :: rest) = continues start := by
        cases start with
        | nil => simp [continues, hb]
        | cons d start => rfl
      cases hc : isBlank c with
      | true => simpa [runs, hc] using ih
      | false =>
          cases hr : continues start with
          | false => simp [runs, hc, hs, hr, ih]
          | true => simp [runs, hc, hs, hr, ih, extend_append c (runs_ne_nil hr)]

theorem runs_eq_singleton {w : List Char} (hw : w ≠ []) (h : ∀ c ∈ w, isBlank c = false) :
    runs w = [w] := by
  induction w with
  | nil => exact absurd rfl hw
  | cons c rest ih =>
      have hc : isBlank c = false := h c (by simp)
      cases rest with
      | nil => simp [runs, hc, continues]
      | cons d rest =>
          have hd : isBlank d = false := h d (by simp)
          have hr : runs (d :: rest) = [d :: rest] :=
            ih (by simp) (fun x hx => h x (List.mem_cons_of_mem c hx))
          rw [runs, hr]
          simp [hc, continues, hd, extend]

theorem runs_intercalate {ws : List (List Char)}
    (h : ∀ w ∈ ws, w ≠ [] ∧ ∀ c ∈ w, isBlank c = false) : runs ([' '].intercalate ws) = ws := by
  induction ws with
  | nil => rfl
  | cons w ws ih =>
      obtain ⟨hne, hw⟩ := h w (by simp)
      cases ws with
      | nil => simpa using runs_eq_singleton hne hw
      | cons v ws =>
          have hrest := ih fun u hu => h u (List.mem_cons_of_mem w hu)
          rw [List.intercalate_cons_cons, List.append_assoc, List.singleton_append,
            runs_append_blank (by decide), runs_eq_singleton hne hw, hrest]
          rfl

theorem words_ofList (cs : List Char) : words (String.ofList cs) = (runs cs).map String.ofList := by
  rw [words, String.toList_ofList]

theorem words_intercalate_words (text : String) :
    words (" ".intercalate (words text)) = words text := by
  have hl : (words text).map String.toList = runs text.toList := by simp [words]
  rw [words, String.toList_intercalate, hl, show " ".toList = [' '] from rfl,
    runs_intercalate fun w hw => runs_solid hw]
  rfl

end InfixArithmetic.Text

import InfixArithmetic.Dialogue
import Mathlib.Data.List.TakeWhile

/-!
Transcripts: what stands on the lines of an input, and the responses to it one after another.
-/

namespace InfixArithmetic

namespace Dialogue

def withoutReturn (piece : List UInt8) : List UInt8 :=
  if piece.getLast? = some carriageReturn then piece.dropLast else piece

/-- What follows the last line feed. -/
def remainder (bytes : List UInt8) : List UInt8 :=
  ((bytes.splitOn newline).getLast?).getD []

/-- An input that ends in the middle of a line gives one more of them, as it stands. -/
def contents (bytes : List UInt8) : List (List UInt8) :=
  (bytes.splitOn newline).dropLast.map withoutReturn ++
    if remainder bytes = [] then [] else [remainder bytes]

def Complete (bytes : List UInt8) : Prop :=
  bytes = [] ∨ ∃ start, bytes = start ++ [newline]

theorem newline_not_mem_remainder (bytes : List UInt8) : newline ∉ remainder bytes := by
  induction bytes with
  | nil => simp [remainder]
  | cons b rest ih =>
      obtain ⟨piece, pieces, hp⟩ := List.exists_cons_of_ne_nil (List.splitOn_ne_nil newline rest)
      rw [remainder, hp] at ih
      rw [remainder, List.splitOn_cons_eq_if_modifyHead, hp]
      by_cases hb : b = newline
      · simpa [hb] using ih
      · cases pieces with
        | nil => simpa [hb, Ne.symm hb] using ih
        | cons other others => simpa [hb] using ih

theorem lines_eq (bytes : List UInt8) :
    lines bytes = (bytes.splitOn newline).dropLast.map (· ++ [newline]) ++
      if remainder bytes = [] then [] else [remainder bytes] := by
  induction bytes with
  | nil => simp [lines, remainder]
  | cons b rest ih =>
      obtain ⟨piece, pieces, hp⟩ := List.exists_cons_of_ne_nil (List.splitOn_ne_nil newline rest)
      rw [remainder, hp] at ih
      rw [lines, ih, remainder, List.splitOn_cons_eq_if_modifyHead, hp]
      by_cases hb : b = newline
      · simp [hb]
      · -- The first piece takes in the byte in front; it is also the last where it stands alone.
        cases pieces with
        | nil => by_cases hq : piece = [] <;> simp [hb, hq, Text.extend]
        | cons other others => simp [hb, Text.extend]

theorem unterminated_append_newline (piece : List UInt8) :
    unterminated (piece ++ [newline]) = withoutReturn piece := by
  rcases List.eq_nil_or_concat piece with rfl | ⟨start, c, rfl⟩
  · rfl
  · by_cases hc : c = carriageReturn <;> simp [unterminated, withoutReturn, hc]

theorem unterminated_of_not_mem {piece : List UInt8} (h : newline ∉ piece) :
    unterminated piece = piece := by
  rcases List.eq_nil_or_concat piece with rfl | ⟨start, c, rfl⟩
  · rfl
  · have hc : c ≠ newline := by
      rintro rfl
      exact h (by simp)
    simp [unterminated, hc]

theorem map_unterminated_lines (bytes : List UInt8) :
    (lines bytes).map unterminated = contents bytes := by
  rw [lines_eq, contents, List.map_append, List.map_map]
  congr 1
  · exact List.map_congr_left fun piece _ => unterminated_append_newline piece
  · split
    · rfl
    · rw [List.map_singleton, unterminated_of_not_mem (newline_not_mem_remainder bytes)]

theorem Complete.lines_append {first : List UInt8} (h : Complete first) (second : List UInt8) :
    lines (first ++ second) = lines first ++ lines second := by
  rcases h with rfl | ⟨start, rfl⟩
  · rfl
  · rw [List.append_assoc, List.singleton_append, Dialogue.lines_append]

theorem Complete.contents_append {first : List UInt8} (h : Complete first)
    (second : List UInt8) : contents (first ++ second) = contents first ++ contents second := by
  rw [← map_unterminated_lines, h.lines_append, List.map_append, map_unterminated_lines,
    map_unterminated_lines]

def text? (content : List UInt8) : Option String :=
  (decode? content).filter (· ≠ exitWord)

def answered (contents : List (List UInt8)) : List String :=
  (contents.takeWhile fun content => (text? content).isSome).filterMap text?

def endingAt (content : List UInt8) : Ending :=
  if (decode? content).isSome then .finished else .undecodable

def ending (contents : List (List UInt8)) : Ending :=
  ((contents.find? fun content => (text? content).isNone).map endingAt).getD .finished

def responses (o : Options) (texts : List String) : String :=
  String.join (texts.map fun text => prompt ++ respond o text)

section Answers

variable {content : List UInt8} {first : List (List UInt8)}

theorem react_of_some {text : String} (o : Options) (h : text? content = some text)
    {line : List UInt8} (hl : unterminated line = content) :
    react o line = .ok (respond o text) := by
  obtain ⟨hd, ht⟩ := Option.filter_eq_some_iff.mp h
  rw [react, hl, hd]
  exact if_neg (by simpa using ht)

theorem react_of_none (o : Options) (h : text? content = none)
    {line : List UInt8} (hl : unterminated line = content) :
    react o line = .error (endingAt content) := by
  rw [react, hl, endingAt]
  cases hd : decode? content with
  | none => rfl
  | some text =>
      have ht : text = exitWord := by simpa [text?, hd] using h
      exact if_pos ht

theorem transcript_eq (o : Options) (ls : List (List UInt8)) :
    transcript o ls = (responses o (answered (ls.map unterminated)) ++ prompt,
      ending (ls.map unterminated)) := by
  induction ls with
  | nil => rfl
  | cons line rest ih =>
      cases h : text? (unterminated line) with
      | none => simp [transcript, react_of_none o h rfl, responses, answered, ending, h]
      | some text =>
          rw [transcript, react_of_some o h rfl, ih]
          simp [responses, answered, ending, h, String.append_assoc]

theorem transcript_lines (o : Options) (bytes : List UInt8) :
    transcript o (lines bytes) =
      (responses o (answered (contents bytes)) ++ prompt, ending (contents bytes)) := by
  rw [transcript_eq, map_unterminated_lines]

theorem responses_append (o : Options) (before after : List String) :
    responses o (before ++ after) = responses o before ++ responses o after := by
  rw [responses, List.map_append, String.join_append]
  rfl

theorem answered_append (h : ∀ content ∈ first, (text? content).isSome)
    (second : List (List UInt8)) :
    answered (first ++ second) = answered first ++ answered second := by
  rw [answered, List.takeWhile_append_of_pos h, List.filterMap_append]
  rw [answered, List.takeWhile_eq_self_iff.mpr h, answered]

theorem ending_append (h : ∀ content ∈ first, (text? content).isSome)
    (second : List (List UInt8)) : ending (first ++ second) = ending second := by
  have hn : (first.find? fun content => (text? content).isNone) = none :=
    List.find?_eq_none.mpr fun content hc => by
      simpa [Option.isSome_iff_ne_none] using h content hc
  rw [ending, List.find?_append, hn]
  rfl

theorem ending_of_forall (h : ∀ content ∈ first, (text? content).isSome) :
    ending first = .finished := by
  rw [← List.append_nil first, ending_append h]
  rfl

theorem answered_of_stop (h : ∃ content ∈ first, text? content = none)
    (second : List (List UInt8)) : answered (first ++ second) = answered first := by
  obtain ⟨content, hm, hc⟩ := h
  rw [answered, List.takeWhile_append, if_neg, answered]
  intro hl
  have hs := List.takeWhile_eq_self_iff.mp
    ((List.takeWhile_sublist _).eq_of_length hl) content hm
  simp [hc] at hs

theorem ending_of_stop (h : ∃ content ∈ first, text? content = none)
    (second : List (List UInt8)) : ending (first ++ second) = ending first := by
  obtain ⟨content, hm, hc⟩ := h
  have hs : (first.find? fun content => (text? content).isNone).isSome :=
    List.find?_isSome.mpr ⟨content, hm, by simp [hc]⟩
  rw [ending, List.find?_append, ending]
  obtain ⟨stop, hstop⟩ := Option.isSome_iff_exists.mp hs
  rw [hstop]
  rfl

end Answers

end Dialogue

open Dialogue in
theorem dialogue_answers_line_by_line (o : Options) :
    (∀ bytes, transcript o (lines bytes) =
      (String.join ((answered (contents bytes)).map fun text => prompt ++ respond o text) ++
        prompt, ending (contents bytes))) ∧
    (∀ text, respond o text =
      match o.report text with
      | .ok (some report) => report ++ "\n"
      | .ok none => ""
      | .error complaint => complaint.chain.getLast?.getD "" ++ "\n") ∧
    (∀ first second, Complete first →
      (∀ content ∈ contents first, (text? content).isSome) →
      ∃ before, transcript o (lines first) = (before ++ prompt, .finished) ∧
        transcript o (lines (first ++ second)) =
          (before ++ (transcript o (lines second)).1, (transcript o (lines second)).2)) ∧
    (∀ first second, Complete first → (∃ content ∈ contents first, text? content = none) →
      transcript o (lines (first ++ second)) = transcript o (lines first)) := by
  refine ⟨transcript_lines o, fun text => rfl, ?_, ?_⟩
  · intro first second hf ha
    refine ⟨responses o (answered (contents first)), ?_, ?_⟩
    · rw [transcript_lines, ending_of_forall ha]
    · simp only [transcript_lines, hf.contents_append, answered_append ha, ending_append ha,
        responses_append, String.append_assoc]
  · intro first second hf hs
    rw [transcript_lines, transcript_lines, hf.contents_append, answered_of_stop hs,
      ending_of_stop hs]

open Dialogue in
theorem dialogue_answers_line_by_line_one :
    (∃ before, transcript {} (lines [49, 10]) = (before ++ prompt, .finished) ∧
      transcript {} (lines [49, 10, 50]) =
        (before ++ (transcript {} (lines [50])).1, (transcript {} (lines [50])).2)) ∧
    transcript {} (lines [101, 120, 105, 116, 13, 10, 50]) =
      transcript {} (lines [101, 120, 105, 116, 13, 10]) :=
  ⟨(dialogue_answers_line_by_line {}).2.2.1 [49, 10] [50] (.inr ⟨[49], rfl⟩) (by decide),
    (dialogue_answers_line_by_line {}).2.2.2 [101, 120, 105, 116, 13, 10] [50]
      (.inr ⟨[101, 120, 105, 116, 13], rfl⟩) (by decide)⟩

end InfixArithmetic

import InfixArithmetic.Decimal.Numeral
import InfixArithmetic.Proofs.ShortestDecimal

/-!
Printed doubles read back.  The text of a finite double is digits with at most one point, behind a
sign where it is negative, and such a text is a number word of the same value, which rounds to the
double again (`printed_of_isFinite`).
-/

namespace InfixArithmetic

open Decimal
open Rounding (Canonical InRange double decimalValue)

namespace Numeral

def pointed (fraction : List Char) : List Char :=
  if fraction = [] then [] else '.' :: fraction

/-- Digits before and behind the point of a decimal, at least one of them before it. -/
structure Writes (whole fraction : List Char) (value : ℚ) : Prop where
  whole_ne_nil : whole ≠ []
  isDigit_whole : ∀ c ∈ whole, c.isDigit = true
  isDigit_fraction : ∀ c ∈ fraction, c.isDigit = true
  value_eq : (ofDigits (whole ++ fraction) : ℚ) / 10 ^ fraction.length = value

theorem takeSign_signed {digits : List Char} (negative : Bool)
    (h : ∀ c ∈ digits.head?, c.isDigit = true) :
    takeSign (signed negative digits) = (negative, digits) := by
  cases negative with
  | true => rfl
  | false =>
      cases digits with
      | nil => rfl
      | cons c rest =>
          have hc : c.isDigit = true := h c rfl
          have hminus : c ≠ '-' := by rintro rfl; cases hc
          have hplus : c ≠ '+' := by rintro rfl; cases hc
          simp [signed, takeSign, hminus, hplus]

theorem takeFraction_pointed {fraction : List Char} (h : ∀ c ∈ fraction, c.isDigit = true) :
    takeFraction (pointed fraction) = (fraction, []) := by
  rw [pointed]
  split
  · rename_i hnil
    rw [hnil]
    rfl
  · simpa [takeFraction] using h

theorem ofList?_signed {whole fraction : List Char} {value : ℚ} (negative : Bool)
    (h : Writes whole fraction value) :
    ofList? (signed negative (whole ++ pointed fraction)) =
      some ⟨negative, ofDigits (whole ++ fraction), -fraction.length⟩ := by
  have hhead : ∀ c ∈ (whole ++ pointed fraction).head?, c.isDigit = true := by
    intro c hc
    rw [List.head?_append_of_ne_nil _ h.whole_ne_nil] at hc
    exact h.isDigit_whole c (List.mem_of_mem_head? hc)
  have hpoint : (pointed fraction).takeWhile Char.isDigit = [] ∧
      (pointed fraction).dropWhile Char.isDigit = pointed fraction := by
    rw [pointed]
    split <;> simp
  rw [ofList?, takeSign_signed negative hhead]
  dsimp only
  rw [List.takeWhile_append_of_pos h.isDigit_whole, List.dropWhile_append_of_pos h.isDigit_whole,
    hpoint.1, hpoint.2, takeFraction_pointed h.isDigit_fraction]
  simp [h.whole_ne_nil, power?]

end Numeral

namespace Decimal

open Numeral

theorem isDigit_digitsOf {n : Nat} : ∀ c ∈ digitsOf n, c.isDigit = true :=
  fun _ hc => Nat.isDigit_of_mem_toDigits (by decide) (by decide) hc

theorem ofDigits_digitsOf (n : Nat) : ofDigits (digitsOf n) = n :=
  Nat.ofDigitChars_ten_toDigits

theorem ofDigits_append (ds es : List Char) :
    ofDigits (ds ++ es) = 10 ^ es.length * ofDigits ds + ofDigits es := by
  change Nat.ofDigitChars 10 (ds ++ es) 0 = _
  rw [Nat.ofDigitChars_append, Nat.ofDigitChars_eq_ofDigitChars_zero]
  rfl

theorem writes_digitsOf (n : Nat) : Writes (digitsOf n) [] n :=
  ⟨Nat.toDigits_ne_nil, isDigit_digitsOf, by simp, by simp [ofDigits_digitsOf]⟩

theorem length_padded {width n : Nat} (hwidth : 0 < width) (hn : n < 10 ^ width) :
    (padded width n).length = width := by
  have : (digitsOf n).length ≤ width := (Nat.length_toDigits_le_iff (by decide) hwidth).mpr hn
  rw [padded, List.length_append, List.length_replicate]
  omega

theorem ofDigits_padded (width n : Nat) : ofDigits (padded width n) = n := by
  have hzeros (count : Nat) : ofDigits (List.replicate count '0') = 0 :=
    Nat.ofDigitChars_replicate_zero
  rw [padded, ofDigits_append, hzeros, ofDigits_digitsOf, Nat.mul_zero, Nat.zero_add]

theorem isDigit_padded {width n : Nat} : ∀ c ∈ padded width n, c.isDigit = true := by
  intro c hc
  rcases List.mem_append.mp hc with hc | hc
  · rw [(List.mem_replicate.mp hc).2]
    rfl
  · exact isDigit_digitsOf c hc

theorem writes_positional (d : Decimal) : ∃ whole fraction,
    d.positional = whole ++ pointed fraction ∧ Writes whole fraction d.value ∧
      fraction.length = (-d.exponent).toNat := by
  obtain ⟨digits, exponent⟩ := d
  cases exponent with
  | ofNat k =>
      refine ⟨digitsOf (digits * 10 ^ k), [], by simp [positional, pointed], ?_, by simp⟩
      convert writes_digitsOf (digits * 10 ^ k) using 1
      simp [value]
  | negSucc k =>
      have hpow : 0 < 10 ^ (k + 1) := by positivity
      have hlength := length_padded (Nat.succ_pos k) (Nat.mod_lt digits hpow)
      have hne : padded (k + 1) (digits % 10 ^ (k + 1)) ≠ [] := by
        intro hnil
        simp [hnil] at hlength
      refine ⟨digitsOf (digits / 10 ^ (k + 1)), padded (k + 1) (digits % 10 ^ (k + 1)), ?_,
        ⟨Nat.toDigits_ne_nil, isDigit_digitsOf, isDigit_padded, ?_⟩, by simpa using hlength⟩
      · simp [positional, pointed, hne]
      · rw [ofDigits_append, ofDigits_digitsOf, ofDigits_padded, hlength, Nat.div_add_mod, value,
          Int.negSucc_eq, zpow_neg, div_eq_mul_inv]
        norm_cast

end Decimal

open Float.Model.UnpackedFloat (Sign)
open Binary64 (isNegative)
open Numeral (Writes pointed ofDigits)

/-- The text of a finite double reads back as that double, and so do its digits without the sign. -/
structure Printed (x : Float) (negative : Bool) (digits : List Char) : Prop where
  text_eq : text x = String.ofList (signed negative digits)
  form : ∃ whole fraction value, digits = whole ++ pointed fraction ∧ Writes whole fraction value
  reads : readNumber? (text x) = some x
  reads_abs : readNumber? (String.ofList digits) = some x.abs
  eq_abs : x = if negative then -x.abs else x.abs

theorem Printed.of_writes {y : Sign → Float} {whole fraction : List Char} {value : ℚ}
    (hw : Writes whole fraction value)
    (hread : ∀ s, Numeral.toFloat ⟨isNegative s, ofDigits (whole ++ fraction), -fraction.length⟩ =
      y s)
    (hfinite : ∀ s, (y s).isFinite = true) (habs : ∀ s, (y s).abs = y .positive)
    (htext : ∀ s, text (y s) = String.ofList (signed (isNegative s) (whole ++ pointed fraction)))
    (s : Sign) : Printed (y s) (isNegative s) (whole ++ pointed fraction) := by
  have hreads (s : Sign) : readNumber? (String.ofList (signed (isNegative s)
      (whole ++ pointed fraction))) = some (y s) := by
    rw [readNumber?, String.toList_ofList, Numeral.ofList?_signed _ hw]
    simp [hread, hfinite]
  refine ⟨htext s, ⟨whole, fraction, value, rfl, hw⟩, by rw [htext, hreads], ?_, ?_⟩
  · rw [habs]
    exact hreads .positive
  · rw [habs, ← hread s, ← hread .positive]
    rfl

theorem toFloat_eq_double {n places m : Nat} {e : Int} (s : Sign) (hn : 0 < n)
    (hplaces : places ≤ 2048) (hm : Canonical m e) (hv : InRange m e (n / 10 ^ places / 2 ^ e)) :
    Numeral.toFloat ⟨isNegative s, n, -places⟩ = double s hm := by
  have hvalue : decimalValue n (decide ((-places : Int) < 0)) (-places : Int).natAbs =
      n / 10 ^ places := by
    rw [Int.natAbs_neg, Int.natAbs_natCast, decimalValue]
    split
    · rfl
    · rename_i h
      obtain rfl : places = 0 := by simpa using h
      simp
  have hmagnitude : Float.ofScientific n (decide ((-places : Int) < 0)) (-places : Int).natAbs =
      double .positive hm :=
    Rounding.ofScientific_eq hn (by simpa using hplaces) hm (hvalue ▸ hv)
  rw [Numeral.toFloat, hmagnitude]
  cases s with
  | positive => rfl
  | negative => exact Rounding.neg_double .positive hm

theorem isFinite_double {m : Nat} {e : Int} (s : Sign) (hm : Canonical m e) :
    (double s hm).isFinite = true := by
  change (double s hm).toModel.unpack.isFinite = true
  rw [Rounding.double_unpack]
  rfl

theorem abs_double {m : Nat} {e : Int} (s : Sign) (hm : Canonical m e) :
    (double s hm).abs = double .positive hm := by
  change Float.ofModel (.pack (double s hm).toModel.unpack.abs) = _
  rw [Rounding.double_unpack]
  rfl

theorem printed_double {m : Nat} {e : Int} (s : Sign) (hm : Canonical m e) :
    ∃ digits, Printed (double s hm) (isNegative s) digits := by
  obtain ⟨whole, fraction, hpositional, hw, hlength⟩ := writes_positional (shortest m e)
  have hplaces : fraction.length ≤ 2048 := by
    have hscale := neg_scale_le_exponent m e
    have hleast := hm.least
    rw [scale] at hscale
    omega
  have hn : 0 < ofDigits (whole ++ fraction) := by
    by_contra h
    have hzero := hw.value_eq
    have hpos : (0 : ℚ) < (shortest m e).value :=
      mul_pos (by exact_mod_cast shortest_digits_pos hm) (by positivity)
    rw [Nat.eq_zero_of_not_pos h] at hzero
    simp at hzero
    linarith
  refine ⟨whole ++ pointed fraction, Printed.of_writes (y := fun s => double s hm) hw
    (fun s => toFloat_eq_double s hn hplaces hm ?_) (fun s => isFinite_double s hm)
    (fun s => abs_double s hm) (fun s => ?_) s⟩
  · rw [hw.value_eq]
    exact shortest_inRange hm
  · rw [text, Binary64.ofFloat, Rounding.double_unpack]
    simp only [magnitude, hm.pos.ne', if_false, hpositional]

def zero (s : Sign) : Float :=
  .ofModel (.pack (.zero s))

theorem zero_unpack (s : Sign) : (zero s).toModel.unpack = .zero s := by
  cases s <;> rfl

theorem printed_zero (s : Sign) : Printed (zero s) (isNegative s) ['0'] := by
  have hw : Writes ['0'] [] 0 := writes_digitsOf 0
  refine Printed.of_writes (y := zero) hw (fun s => ?_) (fun s => ?_) (fun s => ?_) (fun s => ?_) s
  · cases s <;> rfl
  · cases s <;> rfl
  · cases s <;> rfl
  · rw [text, Binary64.ofFloat, zero_unpack]
    rfl

theorem printed_of_isFinite {x : Float} (h : x.isFinite = true) :
    ∃ negative digits, Printed x negative digits := by
  cases hx : x.toModel.unpack with
  | finite s m e hpos =>
      rw [Rounding.eq_double hx]
      exact ⟨_, printed_double s _⟩
  | zero s =>
      have : x = zero s := Rounding.eq_of_unpack_eq (by rw [hx, zero_unpack])
      rw [this]
      exact ⟨_, _, printed_zero s⟩
  | infinity s =>
      change x.toModel.unpack.isFinite = true at h
      rw [hx] at h
      cases h
  | notANumber =>
      change x.toModel.unpack.isFinite = true at h
      rw [hx] at h
      cases h

end InfixArithmetic

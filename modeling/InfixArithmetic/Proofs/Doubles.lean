import InfixArithmetic.Proofs.Rounding
import Mathlib

/-!
Doubles and what they unpack to: the canonical mantissas and exponents are those of the finite
doubles other than zero, each of one double.
-/

namespace InfixArithmetic

namespace Rounding

open Float.Model (Format UnpackedFloat)
open Float.Model.UnpackedFloat

theorem toNat_implicit (m : BitVec 52) : (1#1 ++ m).toNat = 2 ^ 52 + m.toNat := by
  rw [BitVec.toNat_append, ← Nat.shiftLeft_add_eq_or_of_lt m.isLt]
  rfl

theorem Canonical.of_unpack {b : BitVec Format.binary64.numBits} {s : Sign} {m : Nat} {e : Int}
    {hpos : 0 < m} (h : unpack .binary64 b = .finite s m e hpos) : Canonical m e := by
  revert h
  fun_cases unpack with
  | case1 => simp
  | case2 => simp
  | case3 => simp
  | case4 mantissa exponent e' signVec sign hinf hzero hm =>
      intro h
      obtain ⟨-, rfl, rfl⟩ := UnpackedFloat.finite.inj h
      have he : e' = -1075 := by simp [e', hzero]; rfl
      have hmant : mantissa.toNat < 2 ^ 52 := mantissa.isLt
      exact ⟨hpos, by omega, by omega, by omega, .inr (by omega)⟩
  | case5 mantissa exponent e' signVec sign hinf hzero =>
      intro h
      obtain ⟨-, rfl, rfl⟩ := UnpackedFloat.finite.inj h
      have hlow : exponent.toNat ≠ 0 := fun h0 => hzero (BitVec.eq_of_toNat_eq h0)
      have hhigh : exponent.toNat ≠ 2047 := fun h0 => hinf (BitVec.eq_of_toNat_eq h0)
      have hlt : exponent.toNat < 2048 := exponent.isLt
      have he : e' = exponent.toNat - 1075 := rfl
      have hmant : mantissa.toNat < 2 ^ 52 := mantissa.isLt
      rw [toNat_implicit]
      exact ⟨by omega, by omega, by omega, by omega, .inl (by omega)⟩

theorem mantissaBits_eq : Format.binary64.mantissaBits = 53 :=
  rfl

theorem unpack_subnormal {m : Nat} (s : Sign) (hpos : 0 < m) (hm : m < 2 ^ 52) :
    unpack .binary64 (packComponents .binary64 s 0#11 (BitVec.ofNat 52 m)) =
      .finite s m (-1074) hpos := by
  have hbits : (BitVec.ofNat 52 m).toNat = m := by
    rw [BitVec.toNat_ofNat]
    omega
  have hzero : BitVec.ofNat 52 m ≠ 0#52 := by
    rw [BitVec.toNat_ne, hbits]
    exact hpos.ne'
  have hinf : (0#11 : BitVec 11) ≠ -1#11 := by decide
  simp only [unpack, unpackMantissa_packComponents, unpackExponent_packComponents,
    unpackSign_packComponents, Sign.ofBitVec_toBitVec, hinf, hzero, if_false, if_true, dif_neg,
    not_false_eq_true, hbits]
  rfl

theorem unpack_normal {m b : Nat} (s : Sign) (hlow : 2 ^ 52 ≤ m) (hhigh : m < 2 ^ 53) (hb : 0 < b)
    (hb' : b < 2047) :
    unpack .binary64 (packComponents .binary64 s (BitVec.ofNat 11 b) (BitVec.ofNat 52 m)) =
      .finite s m (b - 1075) (by omega) := by
  have hbits : (BitVec.ofNat 11 b).toNat = b := by
    rw [BitVec.toNat_ofNat]
    omega
  have hinf : BitVec.ofNat 11 b ≠ -1#11 := by
    rw [BitVec.toNat_ne, hbits]
    exact hb'.ne
  have hzero : BitVec.ofNat 11 b ≠ 0#11 := by
    rw [BitVec.toNat_ne, hbits]
    exact hb.ne'
  have hm : (1#1 ++ BitVec.ofNat 52 m).toNat = m := by
    rw [toNat_implicit, BitVec.toNat_ofNat]
    omega
  simp only [unpack, unpackMantissa_packComponents, unpackExponent_packComponents,
    unpackSign_packComponents, Sign.ofBitVec_toBitVec, hinf, hzero, if_false, hm, hbits]
  rfl

theorem unpack_pack {m : Nat} {e : Int} (s : Sign) (h : Canonical m e) :
    unpack .binary64 (pack .binary64 (.finite s m e h.pos)) = .finite s m e h.pos := by
  have hleast := h.least
  have hgreatest := h.greatest
  have hbias : e + Format.binary64.exponentBias + Format.binary64.mantissaBitsWithoutImplicit =
      e + 1075 := by
    change e + 1023 + 52 = _
    ring
  rw [pack, hbias, mantissaBits_eq, if_neg (by change ¬ 2048 ≤ _; omega)]
  rcases Nat.lt_or_ge m (2 ^ 52) with hsmall | hlarge
  · obtain rfl : e = -1074 := h.normal.resolve_left (by omega)
    have hlog : ¬ m.log2 + 1 = 53 := by
      have := (Nat.log2_lt h.pos.ne').mpr hsmall
      omega
    rw [if_neg hlog]
    exact unpack_subnormal s h.pos hsmall
  · have hlog : m.log2 + 1 = 53 := by
      have := (Nat.le_log2 h.pos.ne').mpr hlarge
      have := (Nat.log2_lt h.pos.ne').mpr h.lt
      omega
    have he : (((e + 1075).toNat : Nat) : Int) - 1075 = e := by omega
    rw [if_pos hlog]
    refine (unpack_normal s hlarge h.lt (by omega) (by omega)).trans ?_
    congr 1

/-- The finite doubles other than zero. -/
def double {m : Nat} {e : Int} (s : Sign) (h : Canonical m e) : Float :=
  .ofModel (.pack (.finite s m e h.pos))

@[simp]
theorem double_unpack {m : Nat} {e : Int} (s : Sign) (h : Canonical m e) :
    (double s h).toModel.unpack = .finite s m e h.pos :=
  unpack_pack s h

theorem eq_of_unpack_eq {x y : Float} (h : x.toModel.unpack = y.toModel.unpack) : x = y :=
  Float.toBits_inj.mp (UInt64.toBitVec_inj.mp
    ((unpack_inj_of_valid x.toModel.valid y.toModel.valid).mp h))

theorem eq_double {x : Float} {s : Sign} {m : Nat} {e : Int} {hpos : 0 < m}
    (h : x.toModel.unpack = .finite s m e hpos) : x = double s (Canonical.of_unpack h) :=
  eq_of_unpack_eq (by rw [h, double_unpack])

theorem neg_double {m : Nat} {e : Int} (s : Sign) (h : Canonical m e) :
    -double s h = double (-s) h := by
  change Float.ofModel (.pack (double s h).toModel.unpack.neg) = _
  rw [double_unpack]
  rfl

end Rounding

end InfixArithmetic

import Mathlib

/-!
# Mantissas and exponents in bits

A finite number of a format has a mantissa and an exponent that the format can hold (`Canonical`).
Bits that stand for a finite number are unpacked to such a pair (`canonical_of_unpack`), and such a
pair is packed into bits that are unpacked to it again (`unpack_pack`). Where a mantissa only fits
(`Fits`), as after rounding, packing keeps the sign and makes nothing a zero (`unpack_pack_fits`).
-/

namespace BackoffLM.Floats

open Float.Model (Format UnpackedFloat totalExponent)
open Float.Model.UnpackedFloat

/-- A mantissa and an exponent that are not out of the bounds of a format. -/
structure Fits (format : Format) (mantissa : Nat) (exponent : Int) : Prop where
  pos : 0 < mantissa
  lt : mantissa < 2 ^ format.mantissaBits
  min_le : format.minExponent ≤ exponent

/-- The mantissa and exponent of a number in a format: the mantissa is filled, unless the exponent
is the least. -/
structure Canonical (format : Format) (mantissa : Nat) (exponent : Int) : Prop
    extends Fits format mantissa exponent where
  normal_or : 2 ^ format.mantissaBitsWithoutImplicit ≤ mantissa ∨ exponent = format.minExponent

/-- The greatest exponent of a number in a format. -/
def maxExponent (format : Format) : Int :=
  format.exponentBias - format.mantissaBitsWithoutImplicit

section

variable {format : Format}

theorem minExponent_eq (format : Format) :
    format.minExponent = 1 - (format.exponentBias + format.mantissaBitsWithoutImplicit) := by
  have hpos : 0 < 2 ^ (format.exponentBits - 1) := Nat.two_pow_pos _
  unfold Format.minExponent Format.exponentBias Format.mantissaBits
  push_cast [Nat.cast_sub hpos]
  ring

/-- The exponent fields of a format: those of finite numbers, and the one of the others. -/
theorem two_pow_exponentBits (format : Format) :
    2 ^ format.exponentBits = 2 * format.exponentBias + 2 := by
  have hpos : 0 < 2 ^ (format.exponentBits - 1) := Nat.two_pow_pos _
  have hbits : format.exponentBits = format.exponentBits - 1 + 1 :=
    (Nat.sub_add_cancel format.he).symm
  unfold Format.exponentBias
  conv_lhs => rw [hbits, Nat.pow_succ]
  omega

theorem two_pow_mantissaBits (format : Format) :
    2 ^ format.mantissaBits = 2 * 2 ^ format.mantissaBitsWithoutImplicit := by
  rw [Format.mantissaBits, Nat.pow_add, Nat.pow_one]

/-- The exponent of a canonical number is the one that rounding aims at. -/
theorem Canonical.targetExponent_eq {m : Nat} {e : Int} (h : Canonical format m e) :
    format.targetExponent (totalExponent m e) = e := by
  have hlog : m.log2 < format.mantissaBits := (Nat.log2_lt h.pos.ne').mpr h.lt
  have hmin := h.min_le
  unfold Format.targetExponent totalExponent
  rcases h.normal_or with hnormal | hleast
  · have hfull := (Nat.le_log2 h.pos.ne').mpr hnormal
    rw [Format.mantissaBits] at hlog ⊢
    push_cast
    omega
  · omega

/-! ## Components -/

variable (s : Sign)

/-- A mantissa with its implicit bit. -/
theorem toNat_one_append {n : Nat} (mantissa : BitVec n) :
    (1#1 ++ mantissa).toNat = 2 ^ n + mantissa.toNat := by
  rw [BitVec.toNat_append, ← Nat.shiftLeft_add_eq_or_of_lt mantissa.isLt, Nat.shiftLeft_eq]
  simp

/-- No exponent field of a finite number is the one of the others. -/
theorem ofNat_ne_neg_one {biased : Nat} (h : biased + 1 < 2 ^ format.exponentBits) :
    BitVec.ofNat format.exponentBits biased ≠ -1#_ := by
  intro heq
  have hnat := congrArg BitVec.toNat heq
  rw [BitVec.neg_one_eq_allOnes, BitVec.toNat_allOnes, BitVec.toNat_ofNat,
    Nat.mod_eq_of_lt (by omega)] at hnat
  omega

theorem unpack_packedInfinity (format : Format) :
    unpack format (packedInfinity format s) = .infinity s := by
  unfold unpack packedInfinity
  simp

/-- Components with a filled mantissa. -/
theorem unpack_packComponents_normal {m biased : Nat} (hpos : 0 < m)
    (hfull : 2 ^ format.mantissaBitsWithoutImplicit ≤ m) (hlt : m < 2 ^ format.mantissaBits)
    (hbiased : 0 < biased) (hfield : biased + 1 < 2 ^ format.exponentBits) :
    unpack format (packComponents format s (BitVec.ofNat _ biased) (BitVec.ofNat _ m)) =
      .finite s m (biased - (format.exponentBias + format.mantissaBitsWithoutImplicit)) hpos := by
  have hmod : biased % 2 ^ format.exponentBits = biased := Nat.mod_eq_of_lt (by omega)
  have hzero : BitVec.ofNat format.exponentBits biased ≠ 0#_ := by
    intro heq
    have hnat := congrArg BitVec.toNat heq
    rw [BitVec.toNat_ofNat, hmod, BitVec.toNat_zero] at hnat
    omega
  have hmantissa : 2 ^ format.mantissaBitsWithoutImplicit +
      m % 2 ^ format.mantissaBitsWithoutImplicit = m := by
    rw [two_pow_mantissaBits] at hlt
    rw [Nat.mod_eq_sub_mod hfull, Nat.mod_eq_of_lt (by omega)]
    omega
  unfold unpack
  simp only [unpackMantissa_packComponents, unpackExponent_packComponents,
    unpackSign_packComponents, Sign.ofBitVec_toBitVec, ofNat_ne_neg_one hfield, hzero, if_false,
    toNat_one_append, BitVec.toNat_ofNat, hmantissa, hmod]

/-- Components with the least exponent and a mantissa that is not filled. -/
theorem unpack_packComponents_subnormal {m : Nat} (hpos : 0 < m)
    (hlt : m < 2 ^ format.mantissaBitsWithoutImplicit) :
    unpack format (packComponents format s 0#_ (BitVec.ofNat _ m)) =
      .finite s m format.minExponent hpos := by
  have hfield : BitVec.ofNat format.exponentBits 0 ≠ -1#_ :=
    ofNat_ne_neg_one (by rw [two_pow_exponentBits]; omega)
  have hmod : m % 2 ^ format.mantissaBitsWithoutImplicit = m := Nat.mod_eq_of_lt hlt
  have hzero : BitVec.ofNat format.mantissaBitsWithoutImplicit m ≠ 0#_ := by
    intro heq
    have hnat := congrArg BitVec.toNat heq
    rw [BitVec.toNat_ofNat, hmod, BitVec.toNat_zero] at hnat
    omega
  have hexponent : ((0 : Nat) : Int) -
      (format.exponentBias + format.mantissaBitsWithoutImplicit) + 1 = format.minExponent := by
    rw [minExponent_eq]
    push_cast
    ring
  unfold unpack
  simp only [unpackMantissa_packComponents, unpackExponent_packComponents,
    unpackSign_packComponents, Sign.ofBitVec_toBitVec, hfield, hzero, if_false, if_true, dif_neg,
    BitVec.toNat_ofNat, Nat.zero_mod, hmod, hexponent, not_false_eq_true]

/-! ## Numbers -/

/-- Bits of a finite number are unpacked to a mantissa and exponent of the format. -/
theorem canonical_of_unpack {bits : BitVec format.numBits} {s : Sign} {m : Nat} {e : Int}
    {hpos : 0 < m} (h : unpack format bits = .finite s m e hpos) :
    Canonical format m e ∧ e ≤ max (maxExponent format) format.minExponent := by
  have hmantissa := (unpackMantissa bits).isLt
  have hexponent := (unpackExponent bits).isLt
  have hfull := two_pow_mantissaBits format
  have hcapacity := two_pow_exponentBits format
  have hmin := minExponent_eq format
  unfold unpack at h
  dsimp only at h
  split at h
  · split at h <;> cases h
  · rename_i hother
    split at h
    · rename_i hleast
      split at h
      · cases h
      · -- The least exponent, with a mantissa that is not filled.
        injection h with _ hm he
        have hfield : (unpackExponent bits).toNat = 0 := congrArg BitVec.toNat hleast
        rw [hfield] at he
        unfold maxExponent
        exact ⟨⟨⟨hpos, by omega, by omega⟩, .inr (by omega)⟩, le_max_of_le_right (by omega)⟩
    · rename_i hnormal
      injection h with _ hm he
      have hfield : (unpackExponent bits).toNat ≠ 0 := fun hzero =>
        hnormal (BitVec.eq_of_toNat_eq hzero)
      have htop : (unpackExponent bits).toNat ≠ 2 ^ format.exponentBits - 1 := fun hones => by
        refine hother (BitVec.eq_of_toNat_eq ?_)
        rw [BitVec.neg_one_eq_allOnes, BitVec.toNat_allOnes, hones]
      rw [toNat_one_append] at hm
      unfold maxExponent
      exact ⟨⟨⟨hpos, by omega, by omega⟩, .inl (by omega)⟩, le_max_of_le_left (by omega)⟩

/-- What is packed from a mantissa and exponent that fit is unpacked to a number of the same sign
that is no zero. -/
theorem unpack_pack_fits {m : Nat} {e : Int} (h : Fits format m e) :
    unpack format (pack format (.finite s m e h.pos)) = .infinity s ∨
      ∃ m' e' hpos, unpack format (pack format (.finite s m e h.pos)) = .finite s m' e' hpos := by
  have hmin := h.min_le
  rw [minExponent_eq] at hmin
  unfold pack
  dsimp only
  split
  · exact .inl (unpack_packedInfinity s format)
  · rename_i hfield
    split
    · rename_i hlog
      have hfull : 2 ^ format.mantissaBitsWithoutImplicit ≤ m := by
        refine (Nat.le_log2 h.pos.ne').mp ?_
        rw [Format.mantissaBits] at hlog
        omega
      exact .inr ⟨_, _, h.pos,
        unpack_packComponents_normal s h.pos hfull h.lt (by omega) (by omega)⟩
    · rename_i hlog
      have hlt : m < 2 ^ format.mantissaBitsWithoutImplicit := by
        have hlog' := (Nat.log2_lt h.pos.ne').mpr h.lt
        refine (Nat.log2_lt h.pos.ne').mp ?_
        rw [Format.mantissaBits] at hlog hlog'
        omega
      exact .inr ⟨_, _, h.pos, unpack_packComponents_subnormal s h.pos hlt⟩

/-- A mantissa and exponent of the format are packed into bits that are unpacked to them. -/
theorem unpack_pack {m : Nat} {e : Int} (h : Canonical format m e) (hmax : e ≤ maxExponent format) :
    unpack format (pack format (.finite s m e h.pos)) = .finite s m e h.pos := by
  have hmin := h.min_le
  have hcapacity := two_pow_exponentBits format
  have hlog := (Nat.log2_lt h.pos.ne').mpr h.lt
  rw [minExponent_eq] at hmin
  unfold maxExponent at hmax
  unfold pack
  dsimp only
  rw [if_neg (by omega)]
  by_cases hfull : 2 ^ format.mantissaBitsWithoutImplicit ≤ m
  · have hlog' := (Nat.le_log2 h.pos.ne').mpr hfull
    have hfilled : m.log2 + 1 = format.mantissaBits := by
      rw [Format.mantissaBits] at hlog ⊢
      omega
    rw [if_pos hfilled,
      unpack_packComponents_normal s h.pos hfull h.lt (by omega) (by omega)]
    congr 1
    omega
  · have hlog' := (Nat.log2_lt h.pos.ne').mpr (Nat.not_le.mp hfull)
    have hshort : m.log2 + 1 ≠ format.mantissaBits := by
      rw [Format.mantissaBits]
      omega
    rw [if_neg hshort, unpack_packComponents_subnormal s h.pos (Nat.not_le.mp hfull)]
    congr 1
    exact (h.normal_or.resolve_left hfull).symm

end

end BackoffLM.Floats

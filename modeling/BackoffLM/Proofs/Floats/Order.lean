import BackoffLM.LogProb
import BackoffLM.Proofs.Floats.Rounding

/-!
# The order of log probabilities

A finite log probability is a zero, or stands for a mantissa and an exponent of single precision
(`exists_parts`), so that the bits below its sign are ordered as the numbers they stand for. Hence
finite log probabilities compare as the whole numbers that their bits stand for (`numLt_iff`,
`numEq_iff`), and two of them are equal as numbers when they have the same bits or are both zeros
(`number_eq_iff`).
-/

namespace BackoffLM.LogProb

open Float.Model (Format UnpackedFloat)
open Float.Model.UnpackedFloat
open Floats

/-- The sign, mantissa and exponent that a log probability stands for. -/
def unpacked (x : LogProb) : UnpackedFloat := x.toFloat32.toModel.unpack

/-- The sign that the sign bit stands for. -/
def sign (x : LogProb) : Sign := if x.isNegative then .negative else .positive

/-- A whole number that orders finite log probabilities as numbers. -/
def number (x : LogProb) : Int := x.sign.apply x.magnitude

/-- The bits as single precision has them. -/
def word (x : LogProb) : BitVec Format.binary32.numBits := x.bits.toBitVec

/-! ## Fields -/

section

variable (x : LogProb)

theorem toNat_unpackMantissa : (unpackMantissa x.word).toNat = x.magnitude % 2 ^ 23 := by
  have hfield : (unpackMantissa x.word).toNat = x.bits.toNat % 2 ^ 23 := by
    simp [unpackMantissa, word]
  rw [hfield, magnitude]
  omega

theorem toNat_unpackExponent : (unpackExponent x.word).toNat = x.magnitude / 2 ^ 23 := by
  have hfield : (unpackExponent x.word).toNat = x.bits.toNat / 2 ^ 23 % 2 ^ 8 := by
    simp [unpackExponent, word, Nat.shiftRight_eq_div_pow]
  rw [hfield, magnitude]
  omega

theorem ofBitVec_unpackSign : Sign.ofBitVec (unpackSign x.word) = x.sign := by
  have hfield : (unpackSign x.word).toNat = x.bits.toNat / 2 ^ 31 % 2 := by
    simp [unpackSign, word, Nat.shiftRight_eq_div_pow]
  have hlt : x.bits.toNat < 2 ^ 32 := x.bits.toNat_lt
  have hzero : unpackSign x.word = 0#1 ↔ ¬ x.isNegative = true := by
    rw [← BitVec.toNat_inj, hfield, isNegative, decide_eq_true_iff, BitVec.toNat_zero]
    omega
  unfold Sign.ofBitVec sign
  simp only [hzero, ite_not]

variable {x} (hx : x.isFinite = true)
include hx

/-- The exponent field of a finite number is not the one of the others. -/
theorem unpackExponent_ne : unpackExponent x.word ≠ -1#_ := by
  intro hfield
  have hnat := congrArg BitVec.toNat hfield
  have hlt : x.magnitude < 0x7F800000 := of_decide_eq_true hx
  rw [toNat_unpackExponent, BitVec.neg_one_eq_allOnes, BitVec.toNat_allOnes] at hnat
  norm_num at hnat
  omega

theorem valid_of_isFinite : Format.binary32.Valid x.bits.toBitVec :=
  ⟨fun hfield => absurd hfield (unpackExponent_ne hx)⟩

/-- A finite number is what its bits stand for. -/
theorem toModel_toFloat32 : x.toFloat32.toModel = ⟨x.bits, valid_of_isFinite hx⟩ := by
  show Float32.Model.pack (unpack _ x.word) = _
  rw [Float32.Model.pack]
  congr 1
  exact congrArg UInt32.ofBitVec (pack_unpack_of_valid (valid_of_isFinite hx))

theorem unpacked_eq : x.unpacked = unpack _ x.word := by
  rw [unpacked, toModel_toFloat32 hx]
  rfl

omit hx in
/-- A zero is unpacked as one of its sign. -/
theorem unpacked_of_magnitude_eq_zero (h : x.magnitude = 0) : x.unpacked = .zero x.sign := by
  have hx : x.isFinite = true := decide_eq_true (by rw [h]; decide)
  have hexponent : unpackExponent x.word = 0#_ :=
    BitVec.eq_of_toNat_eq (by rw [toNat_unpackExponent, h]; rfl)
  have hmantissa : unpackMantissa x.word = 0#_ :=
    BitVec.eq_of_toNat_eq (by rw [toNat_unpackMantissa, h]; rfl)
  rw [unpacked_eq hx, unpack, if_neg (unpackExponent_ne hx), if_pos hexponent, dif_pos hmantissa,
    ofBitVec_unpackSign]

/-- A number that is no zero stands for a mantissa and an exponent, in which its magnitude grows. -/
structure Parts (x : LogProb) (m : Nat) (e : Int) : Prop extends Canonical .binary32 m e where
  unpacked_eq : x.unpacked = .finite x.sign m e pos
  le_max : e ≤ max (maxExponent .binary32) Format.binary32.minExponent
  magnitude_eq : (x.magnitude : Int) = (e + 149) * 2 ^ 23 + m

/-- A finite number that is no zero has a mantissa and an exponent. -/
theorem exists_parts (h : x.magnitude ≠ 0) : ∃ m e, Parts x m e := by
  have hmantissa := toNat_unpackMantissa x
  have hexponent := toNat_unpackExponent x
  have hbias : (Format.binary32.exponentBias : Int) = 127 := rfl
  have hlength : (Format.binary32.mantissaBitsWithoutImplicit : Int) = 23 := rfl
  have hparts : ∃ m e, ∃ hpos : 0 < m, unpack _ x.word = .finite x.sign m e hpos ∧
      (x.magnitude : Int) = (e + 149) * 2 ^ 23 + m := by
    unfold unpack
    rw [if_neg (unpackExponent_ne hx), ofBitVec_unpackSign]
    by_cases hleast : unpackExponent x.word = 0#_
    · -- The least exponent, with a mantissa that is not filled.
      have hfield : (unpackExponent x.word).toNat = 0 := congrArg BitVec.toNat hleast
      have hpos : 0 < (unpackMantissa x.word).toNat := by omega
      have hsome : unpackMantissa x.word ≠ 0#_ := fun hnone =>
        hpos.ne' (congrArg BitVec.toNat hnone)
      rw [if_pos hleast, dif_neg hsome]
      exact ⟨_, _, hpos, rfl, by rw [hfield, hbias, hlength]; omega⟩
    · have hpos : 0 < (1#1 ++ unpackMantissa x.word).toNat := by
        rw [toNat_one_append]
        exact Nat.add_pos_left (Nat.two_pow_pos _) _
      rw [if_neg hleast]
      refine ⟨_, _, hpos, rfl, ?_⟩
      rw [hbias, hlength, toNat_one_append]
      show (x.magnitude : Int) = _ + ((2 ^ 23 + (unpackMantissa x.word).toNat : Nat) : Int)
      omega
  obtain ⟨m, e, hpos, hunpacked, hmagnitude⟩ := hparts
  obtain ⟨hcanonical, hmax⟩ := canonical_of_unpack hunpacked
  exact ⟨m, e, hcanonical, (unpacked_eq hx).trans hunpacked, hmax, hmagnitude⟩

end

/-! ## Comparisons -/

section

variable {a b : LogProb}

namespace Parts

variable {ma mb : Nat} {ea eb : Int} (ha : Parts a ma ea) (hb : Parts b mb eb)

include ha in
/-- The bounds of single precision, and the magnitude. -/
theorem bounds : 0 < ma ∧ ma < 2 ^ 24 ∧ -149 ≤ ea ∧ (2 ^ 23 ≤ ma ∨ ea = -149) ∧ ea ≤ 104 ∧
    (a.magnitude : Int) = (ea + 149) * 2 ^ 23 + ma :=
  ⟨ha.pos, ha.lt, ha.min_le, ha.normal_or, ha.le_max, ha.magnitude_eq⟩

include ha hb

/-- A greater exponent goes with a greater magnitude, and of two mantissas with one exponent the
greater one does. -/
theorem magnitude_lt_iff :
    a.magnitude < b.magnitude ↔ ea < eb ∨ (ea = eb ∧ ma < mb) := by
  obtain ⟨hpos, hlt, hmin, hnormal, -, hmagnitude⟩ := ha.bounds
  obtain ⟨hpos', hlt', hmin', hnormal', -, hmagnitude'⟩ := hb.bounds
  omega

/-- Exponents and mantissas compare as the magnitudes do. -/
theorem compare_eq :
    (compare ea eb).then (compare ma mb) = compare (a.magnitude : Int) b.magnitude := by
  have hlt := ha.magnitude_lt_iff hb
  have hgt := hb.magnitude_lt_iff ha
  rcases lt_trichotomy ea eb with he | rfl | he
  · rw [Int.compare_eq_lt.mpr he, Int.compare_eq_lt.mpr (Int.ofNat_lt.mpr (hlt.mpr (.inl he)))]
    rfl
  · rw [Int.compare_eq_eq.mpr rfl, Ordering.then]
    rcases lt_trichotomy ma mb with hm | rfl | hm
    · rw [Nat.compare_eq_lt.mpr hm,
        Int.compare_eq_lt.mpr (Int.ofNat_lt.mpr (hlt.mpr (.inr ⟨rfl, hm⟩)))]
    · rw [Nat.compare_eq_eq.mpr rfl, Int.compare_eq_eq.mpr (by omega)]
    · rw [Nat.compare_eq_gt.mpr hm,
        Int.compare_eq_gt.mpr (Int.ofNat_lt.mpr (hgt.mpr (.inr ⟨rfl, hm⟩)))]
  · rw [Int.compare_eq_gt.mpr he, Int.compare_eq_gt.mpr (Int.ofNat_lt.mpr (hgt.mpr (.inl he)))]
    rfl

end Parts

/-- A zero has the number zero, whatever its sign. -/
theorem number_of_magnitude_eq_zero (h : a.magnitude = 0) : a.number = 0 := by
  rw [number, h]
  cases a.sign <;> rfl

/-- Only the two zeros have one number. -/
theorem number_eq_iff : a.number = b.number ↔ a = b ∨ (a.magnitude = 0 ∧ b.magnitude = 0) := by
  constructor
  · intro h
    obtain ⟨⟨abits⟩, ⟨bbits⟩⟩ := a, b
    rw [or_iff_not_imp_right]
    intro hzero
    have ha := abits.toNat_lt
    have hb := bbits.toNat_lt
    rw [mk.injEq, ← UInt32.toNat_inj]
    revert h hzero
    unfold number sign isNegative magnitude
    split <;> split <;> simp only [Sign.apply, decide_eq_true_eq] at * <;> omega
  · rintro (rfl | ⟨ha, hb⟩)
    · rfl
    · rw [number_of_magnitude_eq_zero ha, number_of_magnitude_eq_zero hb]

/-- Ranks order log probabilities as numbers, and the zeros by their signs. -/
theorem number_le_of_rank_le (h : a.rank ≤ b.rank) : a.number ≤ b.number := by
  unfold rank at h
  unfold number sign
  revert h
  cases a.isNegative <;> cases b.isNegative <;> simp [Sign.apply]

/-- Finite log probabilities compare as their whole numbers. -/
theorem compare_eq (ha : a.isFinite = true) (hb : b.isFinite = true) :
    a.unpacked.compare b.unpacked = some (compare a.number b.number) := by
  have hpos : ∀ {x : LogProb}, x.magnitude ≠ 0 → 0 < (x.magnitude : Int) := fun h =>
    Int.natCast_pos.mpr (Nat.pos_of_ne_zero h)
  by_cases ha0 : a.magnitude = 0
  · rw [unpacked_of_magnitude_eq_zero ha0, number_of_magnitude_eq_zero ha0]
    by_cases hb0 : b.magnitude = 0
    · rw [unpacked_of_magnitude_eq_zero hb0, number_of_magnitude_eq_zero hb0]
      rfl
    · obtain ⟨m, e, h⟩ := exists_parts hb hb0
      rw [h.unpacked_eq, number]
      cases b.sign with
      | negative => exact congrArg some (Int.compare_eq_gt.mpr (neg_neg_of_pos (hpos hb0))).symm
      | positive => exact congrArg some (Int.compare_eq_lt.mpr (hpos hb0)).symm
  · obtain ⟨m, e, h⟩ := exists_parts ha ha0
    by_cases hb0 : b.magnitude = 0
    · rw [unpacked_of_magnitude_eq_zero hb0, number_of_magnitude_eq_zero hb0, h.unpacked_eq, number]
      cases a.sign with
      | negative => exact congrArg some (Int.compare_eq_lt.mpr (neg_neg_of_pos (hpos ha0))).symm
      | positive => exact congrArg some (Int.compare_eq_gt.mpr (hpos ha0)).symm
    · obtain ⟨m', e', h'⟩ := exists_parts hb hb0
      rw [h.unpacked_eq, h'.unpacked_eq, number, number]
      cases a.sign <;> cases b.sign
      · -- Below zero the greater magnitude is that of the lesser number.
        show some ((compare e e').then (compare m m')).swap =
          some (compare (-(a.magnitude : Int)) (-(b.magnitude : Int)))
        rw [h.compare_eq h', Int.compare_swap]
        simp only [Int.compare_eq_ite_lt, Int.neg_lt_neg_iff]
      · exact congrArg some
          (Int.compare_eq_lt.mpr ((neg_neg_of_pos (hpos ha0)).trans (hpos hb0))).symm
      · exact congrArg some
          (Int.compare_eq_gt.mpr ((neg_neg_of_pos (hpos hb0)).trans (hpos ha0))).symm
      · exact congrArg some (h.compare_eq h')

theorem numLt_eq (a b : LogProb) :
    a.numLt b = (a.unpacked.compare b.unpacked == some .lt) := by
  rw [Bool.eq_iff_iff, numLt, decide_eq_true_iff]
  exact decide_eq_true_iff

variable (ha : a.isFinite = true) (hb : b.isFinite = true)
include ha hb

theorem numLt_iff : a.numLt b = true ↔ a.number < b.number := by
  rw [numLt_eq, compare_eq ha hb, beq_iff_eq, Option.some.injEq, Int.compare_eq_lt]

theorem numEq_iff : a.numEq b = true ↔ a.number = b.number := by
  have heq : a.numEq b = (a.unpacked.compare b.unpacked == some .eq) := rfl
  rw [heq, compare_eq ha hb, beq_iff_eq, Option.some.injEq, Int.compare_eq_eq]

/-- Finite, and equal as numbers: only one zero may stand for the other. -/
structure SameFinite (a b : LogProb) : Prop where
  left : a.isFinite = true
  right : b.isFinite = true
  number_eq : a.number = b.number

end

theorem SameFinite.refl {a : LogProb} (h : a.isFinite = true) : a.SameFinite a := ⟨h, h, rfl⟩

theorem SameFinite.numEq_eq {a b : LogProb} (h : a.SameFinite b) : a.numEq b = true :=
  (numEq_iff h.left h.right).mpr h.number_eq

end BackoffLM.LogProb

import BackoffLM.LogProb
import Mathlib

/-!
# Sums as numbers

Two log probabilities are the `SameNumber` when they are equal as numbers or when neither is a
number. Their bits may differ, as a sum that starts from zero turns a negative zero into a positive
one; sums from there on stay the same numbers (`SameNumber.foldl`). So it does not matter whether a
sum starts from zero or from its first term (`foldl_cons_sameNumber`).
-/

namespace BackoffLM.LogProb

/-- The bits of a sum stand for the sum. -/
theorem toFloat32_add (a b : LogProb) : (a + b).toFloat32 = a.toFloat32 + b.toFloat32 :=
  Float32.ofBits_toBits _

/-- Equal as numbers, or neither a number. -/
def SameNumber (a b : LogProb) : Prop :=
  a.numEq b = true ∨ (a.toFloat32.isNaN = true ∧ b.toFloat32.isNaN = true)

instance (a b : LogProb) : Decidable (a.SameNumber b) :=
  inferInstanceAs (Decidable (_ ∨ _))

/-- One of the two zeros. -/
def IsZero (x : Float32) : Prop := x = 0 ∨ x = -0

/-- Only the two zeros are the same number and not the same. -/
theorem sameNumber_iff {a b : LogProb} :
    a.SameNumber b ↔ a.toFloat32 = b.toFloat32 ∨ (IsZero a.toFloat32 ∧ IsZero b.toFloat32) := by
  have hzero : (0 : Float32) ≠ Float32.nan := by decide +kernel
  have hnegZero : (-0 : Float32) ≠ Float32.nan := by decide +kernel
  unfold SameNumber numEq IsZero
  rw [Float32.beq_iff_ne_nan_and_eq, Float32.isNaN_eq_decide_eq_nan,
    Float32.isNaN_eq_decide_eq_nan, decide_eq_true_iff, decide_eq_true_iff]
  constructor
  · rintro (⟨-, -, heq | ⟨ha, hb⟩ | ⟨ha, hb⟩⟩ | ⟨ha, hb⟩)
    · exact .inl heq
    · exact .inr ⟨.inl ha, .inr hb⟩
    · exact .inr ⟨.inr ha, .inl hb⟩
    · exact .inl (ha.trans hb.symm)
  · rintro (heq | ⟨ha, hb⟩)
    · by_cases hnan : a.toFloat32 = Float32.nan
      · exact .inr ⟨hnan, heq ▸ hnan⟩
      · exact .inl ⟨hnan, heq ▸ hnan, .inl heq⟩
    · rcases ha with ha | ha <;> rcases hb with hb | hb <;> rw [ha, hb] <;> simp [hzero, hnegZero]

/-- A log probability is the same number as itself. -/
@[refl]
theorem SameNumber.refl (a : LogProb) : a.SameNumber a := sameNumber_iff.mpr (.inl rfl)

/-- The same the other way round. -/
theorem SameNumber.symm {a b : LogProb} (h : a.SameNumber b) : b.SameNumber a := by
  rw [sameNumber_iff] at h ⊢
  rcases h with heq | ⟨ha, hb⟩
  · exact .inl heq.symm
  · exact .inr ⟨hb, ha⟩

/-- The same number as the same number. -/
theorem SameNumber.trans {a b c : LogProb} (hab : a.SameNumber b) (hbc : b.SameNumber c) :
    a.SameNumber c := by
  rw [sameNumber_iff] at hab hbc ⊢
  rcases hab with hab | ⟨ha, hb⟩
  · rw [hab]
    exact hbc
  · rcases hbc with hbc | ⟨-, hc⟩
    · exact .inr ⟨ha, hbc ▸ hb⟩
    · exact .inr ⟨ha, hc⟩

/-! ## Sums -/

open Float.Model

/-- A number that was unpacked is packed as it was. -/
theorem pack_unpack (x : Float32.Model) : Float32.Model.pack x.unpack = x := by
  have hbits := UnpackedFloat.pack_unpack_of_valid x.valid
  rw [Float32.Model.pack]
  congr 1
  exact congrArg UInt32.ofBitVec hbits

/-- A zero is unpacked as one. -/
theorem unpack_of_isZero {z : Float32} (hz : IsZero z) : ∃ s, z.toModel.unpack = .zero s := by
  rcases hz with rfl | rfl
  · exact ⟨.positive, UnpackedFloat.unpack_packedZero⟩
  · exact ⟨.negative, UnpackedFloat.unpack_packedZero⟩

/-- What is packed from a zero is one. -/
theorem isZero_pack (s : UnpackedFloat.Sign) : IsZero ⟨Float32.Model.pack (.zero s)⟩ := by
  cases s with
  | positive => exact .inl (by decide +kernel)
  | negative => exact .inr (by decide +kernel)

/-- A zero added to a number gives that number, or a zero when it was one. -/
theorem isZero_add {z : Float32} (hz : IsZero z) (x : Float32) :
    z + x = x ∨ (IsZero (z + x) ∧ IsZero x) := by
  obtain ⟨s, hs⟩ := unpack_of_isZero hz
  have hsum : z + x = ⟨.pack (UnpackedFloat.add .binary32 (.zero s) x.toModel.unpack)⟩ := by
    rw [← hs]
    rfl
  have hx : x = ⟨.pack x.toModel.unpack⟩ := by rw [pack_unpack]
  rw [hsum]
  cases hcase : x.toModel.unpack with
  | notANumber =>
    rw [hcase] at hx
    exact .inl hx.symm
  | infinity s' =>
    rw [hcase] at hx
    exact .inl hx.symm
  | finite s' m e hm =>
    rw [hcase] at hx
    exact .inl hx.symm
  | zero s' =>
    -- The sum of two zeros is a zero, of the sign that they share.
    rw [hcase] at hx
    rw [hx, UnpackedFloat.add]
    split
    · exact .inr ⟨isZero_pack s, isZero_pack s'⟩
    · exact .inr ⟨isZero_pack .positive, isZero_pack s'⟩

/-- A zero before a sum changes no number. -/
theorem zero_add_sameNumber (x : LogProb) : (zero + x).SameNumber x := by
  rw [sameNumber_iff, toFloat32_add]
  exact isZero_add (.inl (by decide +kernel)) x.toFloat32

/-- The same numbers with the same term added are the same numbers. -/
theorem SameNumber.add_right {a b : LogProb} (h : a.SameNumber b) (x : LogProb) :
    (a + x).SameNumber (b + x) := by
  rw [sameNumber_iff] at h
  rcases h with heq | ⟨ha, hb⟩
  · rw [sameNumber_iff, toFloat32_add, toFloat32_add, heq]
    exact .inl rfl
  · -- Both are zeros, which leave the number of the term.
    have hleft : (a + x).SameNumber x := by
      rw [sameNumber_iff, toFloat32_add]
      exact isZero_add ha x.toFloat32
    have hright : (b + x).SameNumber x := by
      rw [sameNumber_iff, toFloat32_add]
      exact isZero_add hb x.toFloat32
    exact hleft.trans hright.symm

/-- Sums of the same terms from the same number are the same numbers. -/
theorem SameNumber.foldl {a b : LogProb} (h : a.SameNumber b) (xs : List LogProb) :
    (xs.foldl (· + ·) a).SameNumber (xs.foldl (· + ·) b) := by
  induction xs generalizing a b with
  | nil => exact h
  | cons x xs ih => exact ih (h.add_right x)

/-- A sum from its first term on is the same number as the sum from zero. -/
theorem foldl_cons_sameNumber (x : LogProb) (xs : List LogProb) :
    (xs.foldl (· + ·) x).SameNumber ((x :: xs).foldl (· + ·) zero) :=
  (zero_add_sameNumber x).symm.foldl xs

end BackoffLM.LogProb

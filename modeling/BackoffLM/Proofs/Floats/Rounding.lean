import BackoffLM.Proofs.Floats.Packing

/-!
# Rounding in a format

Rounding shifts a mantissa to the exponent that the format aims at, drops what is shifted out, and
shifts once more when the mantissa grew. A number of the format is left as it is, however its
mantissa was written (`round_long`, `round_short`). A number that is no zero and whose exponent is
not below the least is rounded to one that is no zero either, and that fits (`exists_round`).
-/

namespace BackoffLM.Floats

open Float.Model (Format UnpackedFloat totalExponent)
open Float.Model.UnpackedFloat

/-! ## Shifts -/

/-- A shift drops the low digits. -/
theorem mantissa_shiftRight (em : ExtendedMantissa) (k : Nat) :
    (em >>> k).mantissa = em.mantissa / 2 ^ k := by
  induction k with
  | zero => exact (Nat.div_one _).symm
  | succ k ih =>
    show (em >>> k).mantissa / 2 = _
    rw [ih, Nat.div_div_eq_div_mul, Nat.pow_succ]

/-- Nothing is dropped of a mantissa that ends in as many zeros as it is shifted by. -/
theorem shiftRight_exact (m k : Nat) :
    ExtendedMantissa.ofMantissaAndAccuracy (m * 2 ^ k) .exact >>> k =
      ExtendedMantissa.ofMantissaAndAccuracy m .exact := by
  induction k generalizing m with
  | zero => rw [Nat.pow_zero, Nat.mul_one]; rfl
  | succ k ih =>
    show (ExtendedMantissa.ofMantissaAndAccuracy (m * 2 ^ (k + 1)) .exact >>> k).shiftRightOne = _
    rw [Nat.pow_succ', ← Nat.mul_assoc, ih]
    show ExtendedMantissa.mk (m * 2 / 2) (m * 2 % 2 != 0) false = ⟨m, false, false⟩
    rw [Nat.mul_div_cancel m Nat.two_pos, Nat.mul_mod_left]
    rfl

theorem mantissa_ofMantissaAndAccuracy (m : Nat) (accuracy : Accuracy) :
    (ExtendedMantissa.ofMantissaAndAccuracy m accuracy).mantissa = m := by
  cases accuracy with
  | exact => rfl
  | inexact side => cases side <;> rfl

/-- Rounding never makes a mantissa less. -/
theorem le_roundedMantissa (em : ExtendedMantissa) : em.mantissa ≤ em.roundedMantissa := by
  obtain ⟨m, round, sticky⟩ := em
  cases round <;> cases sticky <;> first | exact Nat.le_refl m | exact Nat.le_add_right m _

/-- The same number with a longer mantissa reaches as far. -/
theorem totalExponent_mul {m : Nat} (hpos : 0 < m) (e : Int) (k : Nat) :
    totalExponent (m * 2 ^ k) (e - k) = totalExponent m e := by
  have hlog : (m * 2 ^ k).log2 = m.log2 + k := by
    induction k with
    | zero => rw [Nat.pow_zero, Nat.mul_one, Nat.add_zero]
    | succ k ih =>
      have hne : m * 2 ^ k ≠ 0 := Nat.mul_ne_zero hpos.ne' (Nat.two_pow_pos k).ne'
      rw [Nat.pow_succ', Nat.mul_left_comm, Nat.log2_two_mul hne, ih]
      rfl
  rw [totalExponent, totalExponent, hlog]
  push_cast
  omega

section

variable {format : Format} (s : Sign)

/-! ## Numbers of the format -/

/-- A number of the format is left as it is. -/
theorem roundWithAccuracy_exact {m : Nat} {e : Int} (h : Canonical format m e) (k : Nat) :
    roundWithAccuracy format s (m * 2 ^ k) (e - k) .exact = .finite s m e h.pos := by
  have hshift : (e - (e - k)).toNat = k := by omega
  have hback : e - k + k = e := Int.sub_add_cancel e k
  have hrounded : (ExtendedMantissa.ofMantissaAndAccuracy m .exact).roundedMantissa = m := rfl
  have hnone : (e - e).toNat = 0 := by omega
  unfold roundWithAccuracy shiftToTargetExponent
  rw [totalExponent_mul h.pos, h.targetExponent_eq]
  unfold shiftToExponent
  dsimp only
  rw [hshift, shiftRight_exact, hback, hrounded, h.targetExponent_eq, hnone]
  show (if h : m = 0 then UnpackedFloat.zero s else _) = _
  rw [dif_neg h.pos.ne']
  congr 1
  exact Int.add_zero e

/-- So is one whose mantissa is longer. -/
theorem round_long {m : Nat} {e : Int} (h : Canonical format m e) (k : Nat) :
    UnpackedFloat.round format s (m * 2 ^ k) (e - k) = .finite s m e h.pos := by
  have hnone : (e - k - e).toNat = 0 := by omega
  unfold UnpackedFloat.round decreaseExponent
  rw [totalExponent_mul h.pos, h.targetExponent_eq]
  dsimp only
  rw [hnone, Nat.shiftLeft_zero, Int.natCast_zero, Int.sub_zero, roundWithAccuracy_exact s h]

/-- So is one whose mantissa is shorter. -/
theorem round_short {m : Nat} {e : Int} (hpos : 0 < m) (k : Nat)
    (h : Canonical format (m * 2 ^ k) (e - k)) :
    UnpackedFloat.round format s m e = .finite s (m * 2 ^ k) (e - k) h.pos := by
  have hshift : (e - (e - k)).toNat = k := by omega
  have hexact := roundWithAccuracy_exact s h 0
  rw [Nat.pow_zero, Nat.mul_one, Int.natCast_zero, Int.sub_zero] at hexact
  unfold UnpackedFloat.round decreaseExponent
  rw [← totalExponent_mul hpos e k, h.targetExponent_eq]
  dsimp only
  rw [hshift, Nat.shiftLeft_eq, hexact]

/-! ## Other numbers -/

/-- A shift to the exponent that the format aims at leaves a mantissa that fits. -/
theorem shift_fits {m : Nat} {e : Int} (hpos : 0 < m) (hmin : format.minExponent ≤ e) :
    let k := (format.targetExponent (totalExponent m e) - e).toNat
    0 < m / 2 ^ k ∧ m / 2 ^ k < 2 ^ format.mantissaBits := by
  intro k
  have hk : k = m.log2 + 1 - format.mantissaBits := by
    have hle := le_max_right (totalExponent m e - format.mantissaBits) format.minExponent
    simp only [k, Format.targetExponent]
    rw [totalExponent]
    omega
  constructor
  · refine Nat.div_pos ?_ (Nat.two_pow_pos k)
    refine Nat.le_trans (Nat.pow_le_pow_right Nat.two_pos ?_) (Nat.log2_self_le hpos.ne')
    rw [hk, Format.mantissaBits]
    omega
  · rw [Nat.div_lt_iff_lt_mul (Nat.two_pow_pos k), ← Nat.pow_add]
    refine Nat.lt_of_lt_of_le Nat.lt_log2_self (Nat.pow_le_pow_right Nat.two_pos ?_)
    omega

/-- Rounding makes no zero, and a mantissa that fits. -/
theorem exists_roundWithAccuracy {m : Nat} {e : Int} (hpos : 0 < m) (hmin : format.minExponent ≤ e)
    (accuracy : Accuracy) :
    ∃ m' e', ∃ h : Fits format m' e',
      roundWithAccuracy format s m e accuracy = .finite s m' e' h.pos := by
  unfold roundWithAccuracy shiftToTargetExponent shiftToExponent
  dsimp only
  -- The first shift leaves some digits, and rounding no fewer.
  obtain ⟨hfirst, -⟩ := shift_fits hpos hmin
  generalize (format.targetExponent (totalExponent m e) - e).toNat = k at *
  have hrounded : 0 <
      (ExtendedMantissa.ofMantissaAndAccuracy m accuracy >>> k).roundedMantissa := by
    refine Nat.lt_of_lt_of_le ?_ (le_roundedMantissa _)
    rwa [mantissa_shiftRight, mantissa_ofMantissaAndAccuracy]
  generalize (ExtendedMantissa.ofMantissaAndAccuracy m accuracy >>> k).roundedMantissa = r at *
  have hmin' : format.minExponent ≤ e + k := by omega
  obtain ⟨hsecond, hlt⟩ := shift_fits hrounded hmin'
  simp only [mantissa_shiftRight, mantissa_ofMantissaAndAccuracy]
  rw [dif_neg hsecond.ne']
  exact ⟨_, _, ⟨hsecond, hlt, by omega⟩, rfl⟩

/-- A number that is no zero is rounded to one that is no zero, and that fits. -/
theorem exists_round {m : Nat} {e : Int} (hpos : 0 < m) (hmin : format.minExponent ≤ e) :
    ∃ m' e', ∃ h : Fits format m' e',
      UnpackedFloat.round format s m e = .finite s m' e' h.pos := by
  have hle := le_max_right (totalExponent m e - format.mantissaBits) format.minExponent
  unfold UnpackedFloat.round decreaseExponent
  refine exists_roundWithAccuracy s ?_ ?_ .exact
  · rw [Nat.shiftLeft_eq]
    exact Nat.mul_pos hpos (Nat.two_pow_pos _)
  · rw [Format.targetExponent]
    omega

/-- A sum that is no zero is rounded with its own sign. -/
theorem normalize_of_ne_zero {m : Int} (hm : m ≠ 0) (e : Int) (zeroSign : Sign) :
    UnpackedFloat.normalize format m e zeroSign =
      UnpackedFloat.round format (if 0 < m then .positive else .negative) m.natAbs e := by
  unfold UnpackedFloat.normalize
  rcases lt_or_gt_of_ne hm with hneg | hpos
  · rw [Int.compare_eq_lt.mpr hneg, if_neg (not_lt.mpr hneg.le)]
    exact congrArg (UnpackedFloat.round format .negative · e) (by omega)
  · rw [Int.compare_eq_gt.mpr hpos, if_pos hpos]
    exact congrArg (UnpackedFloat.round format .positive · e) (by omega)

/-- What is packed from such a sum is unpacked to an infinity or a number that is no zero, of the
sign of the sum. -/
theorem unpack_pack_normalize {m : Int} (hm : m ≠ 0) {e : Int} (hmin : format.minExponent ≤ e)
    (zeroSign : Sign) {sign : Sign} (hsign : sign = if 0 < m then .positive else .negative) :
    let sum := unpack format (pack format (UnpackedFloat.normalize format m e zeroSign))
    sum = .infinity sign ∨ ∃ m' e' hpos, sum = .finite sign m' e' hpos := by
  intro sum
  obtain ⟨m', e', hfits, hround⟩ := exists_round sign (Int.natAbs_pos.mpr hm) hmin
  have hsum : sum = unpack format (pack format (.finite sign m' e' hfits.pos)) := by
    rw [← hround, hsign, ← normalize_of_ne_zero hm e zeroSign]
  rw [hsum]
  exact unpack_pack_fits sign hfits

end

end BackoffLM.Floats

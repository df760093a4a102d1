import BackoffLM.Proofs.Floats.Rounding

/-!
# The nearest number of single precision

Rounding shifts a mantissa and keeps of the digits that it drops whether half a unit was among them
and whether anything below was. Counted in `quarters` of a unit, what is kept is ordered as the
numbers themselves, through any shift and through rounding to the nearest (`roundedMantissa_mono`).
So the number of single precision that is nearest to a whole number of the least units of the format
(`nearestMagnitude`) does not decrease when that number grows (`nearestMagnitude_mono`), and it is
what rounding finds, with whichever mantissa and exponent the number was written
(`exists_round_nearest`).
-/

namespace BackoffLM.Floats

open Float.Model (Format UnpackedFloat totalExponent)
open Float.Model.UnpackedFloat

/-! ## Dropped digits -/

/-- A whole number that orders mantissas with what was dropped of them: a unit counts four, half a
unit two, and whatever there is below that one. -/
def quarters (em : ExtendedMantissa) : Nat :=
  4 * em.mantissa + 2 * em.roundBit.toNat + em.stickyBit.toNat

/-- A shift keeps whether anything was dropped below half a unit. -/
theorem quarters_shiftRightOne (em : ExtendedMantissa) :
    quarters em.shiftRightOne = 2 * (quarters em / 4) + min 1 (quarters em % 4) := by
  obtain ⟨m, round, sticky⟩ := em
  have hbit : (m % 2 != 0).toNat = m % 2 := by
    rcases Nat.mod_two_eq_zero_or_one m with h | h <;> rw [h] <;> rfl
  have hshift : quarters (ExtendedMantissa.shiftRightOne ⟨m, round, sticky⟩) =
      4 * (m / 2) + 2 * (m % 2) + (round || sticky).toNat := by
    rw [← hbit]
    rfl
  rw [hshift, quarters]
  cases round <;> cases sticky <;>
    simp only [Bool.toNat, Bool.or_true, Bool.or_false, cond] <;> omega

/-- Shifts keep the order. -/
theorem quarters_shiftRight_mono {em em' : ExtendedMantissa} (h : quarters em ≤ quarters em')
    (k : Nat) : quarters (em >>> k) ≤ quarters (em' >>> k) := by
  induction k with
  | zero => exact h
  | succ k ih =>
    show quarters (em >>> k).shiftRightOne ≤ quarters (em' >>> k).shiftRightOne
    rw [quarters_shiftRightOne, quarters_shiftRightOne]
    omega

/-- Less than half a unit is dropped, more than half is made whole, and half goes to the even
side. -/
theorem roundedMantissa_eq (em : ExtendedMantissa) :
    em.roundedMantissa =
      if quarters em % 4 + quarters em / 4 % 2 ≤ 2 then quarters em / 4
      else quarters em / 4 + 1 := by
  obtain ⟨m, round, sticky⟩ := em
  have hunits : quarters ⟨m, round, sticky⟩ / 4 = m ∧
      quarters ⟨m, round, sticky⟩ % 4 = 2 * round.toNat + sticky.toNat := by
    rw [quarters]
    cases round <;> cases sticky <;> simp only [Bool.toNat, cond] <;> omega
  rw [hunits.1, hunits.2]
  cases round <;> cases sticky <;>
    simp only [ExtendedMantissa.roundedMantissa, ExtendedMantissa.accuracy,
      Accuracy.roundToNearestEven, Bool.toNat, cond] <;> split <;> omega

/-- Rounding to the nearest, with ties to even, keeps the order. -/
theorem roundedMantissa_mono {em em' : ExtendedMantissa} (h : quarters em ≤ quarters em') :
    em.roundedMantissa ≤ em'.roundedMantissa := by
  rw [roundedMantissa_eq, roundedMantissa_eq]
  rcases Nat.lt_or_eq_of_le (Nat.div_le_div_right h : quarters em / 4 ≤ quarters em' / 4) with
    hlt | heq
  · split <;> split <;> omega
  · rw [heq]
    split <;> split <;> omega

/-- Rounding adds less than one unit. -/
theorem roundedMantissa_le (em : ExtendedMantissa) : em.roundedMantissa ≤ em.mantissa + 1 := by
  obtain ⟨m, round, sticky⟩ := em
  cases round <;> cases sticky <;>
    simp only [ExtendedMantissa.roundedMantissa, ExtendedMantissa.accuracy,
      Accuracy.roundToNearestEven] <;> omega

/-- Shifts add up. -/
theorem shiftRight_add (em : ExtendedMantissa) (i j : Nat) : em >>> (i + j) = em >>> i >>> j := by
  induction j with
  | zero => rfl
  | succ j ih =>
    show (em >>> (i + j)).shiftRightOne = (em >>> i >>> j).shiftRightOne
    rw [ih]

/-! ## Rounding in single precision -/

/-- The mantissa nearest to a whole number of units after a shift. -/
def shifted (n k : Nat) : Nat :=
  (ExtendedMantissa.ofMantissaAndAccuracy n .exact >>> k).roundedMantissa

/-- The bits below the sign of the number nearest to a whole number of the least units of single
precision, as if there were no greatest exponent. -/
def nearestMagnitude (n : Nat) : Nat :=
  (n.log2 - 23) * 2 ^ 23 + shifted n (n.log2 - 23)

/-- Shifted by as many digits, mantissas keep the order. -/
theorem shifted_mono {n n' : Nat} (h : n ≤ n') (k : Nat) : shifted n k ≤ shifted n' k := by
  refine roundedMantissa_mono (quarters_shiftRight_mono ?_ k)
  show 4 * n + 0 + 0 ≤ 4 * n' + 0 + 0
  omega

/-- The mantissa of a number fits, or is the one just past those that do; and it is filled where a
digit may be dropped. -/
theorem shifted_bounds {n : Nat} (hn : 0 < n) :
    0 < shifted n (n.log2 - 23) ∧ shifted n (n.log2 - 23) ≤ 2 ^ 24 ∧
      (23 ≤ n.log2 → 2 ^ 23 ≤ shifted n (n.log2 - 23)) := by
  have hmantissa : (ExtendedMantissa.ofMantissaAndAccuracy n .exact >>> (n.log2 - 23)).mantissa =
      n / 2 ^ (n.log2 - 23) := mantissa_shiftRight _ _
  have hle : shifted n (n.log2 - 23) ≤ n / 2 ^ (n.log2 - 23) + 1 :=
    hmantissa ▸ roundedMantissa_le _
  have hge : n / 2 ^ (n.log2 - 23) ≤ shifted n (n.log2 - 23) :=
    hmantissa ▸ le_roundedMantissa _
  refine ⟨Nat.lt_of_lt_of_le (Nat.div_pos ?_ (Nat.two_pow_pos _)) hge, Nat.le_trans hle ?_,
    fun hlog => Nat.le_trans ?_ hge⟩
  · exact Nat.le_trans (Nat.pow_le_pow_right Nat.two_pos (Nat.sub_le _ _)) (Nat.log2_self_le hn.ne')
  · rw [Nat.succ_le_iff, Nat.div_lt_iff_lt_mul (Nat.two_pow_pos _), ← Nat.pow_add]
    exact Nat.lt_of_lt_of_le Nat.lt_log2_self (Nat.pow_le_pow_right Nat.two_pos (by omega))
  · rw [Nat.le_div_iff_mul_le (Nat.two_pow_pos _), ← Nat.pow_add, Nat.add_sub_cancel' hlog]
    exact Nat.log2_self_le hn.ne'

/-- The nearest number does not decrease. -/
theorem nearestMagnitude_mono {n n' : Nat} (h : n ≤ n') :
    nearestMagnitude n ≤ nearestMagnitude n' := by
  have hlog : n.log2 ≤ n'.log2 := by
    rw [Nat.log2_eq_log_two, Nat.log2_eq_log_two]
    exact Nat.log_mono_right h
  rcases Nat.eq_zero_or_pos n with rfl | hn
  · exact Nat.zero_le _
  unfold nearestMagnitude
  rcases Nat.lt_or_ge (n.log2 - 23) (n'.log2 - 23) with hlt | hge
  · -- Past the next power of two there is a greater exponent, and a mantissa that is filled.
    obtain ⟨-, hle, -⟩ := shifted_bounds hn
    obtain ⟨-, -, hfull⟩ := shifted_bounds (Nat.lt_of_lt_of_le hn h)
    have := hfull (by omega)
    omega
  · have heq : n'.log2 - 23 = n.log2 - 23 := by omega
    rw [heq]
    exact Nat.add_le_add_left (shifted_mono h _) _

/-- A mantissa just past those that fit is written with the next exponent, and any other stays. -/
theorem exists_carried {r : Nat} {t : Int} (hpos : 0 < r) (hle : r ≤ 2 ^ 24) (hmin : -149 ≤ t)
    (hnormal : 2 ^ 23 ≤ r ∨ t = -149) :
    ∃ m' e', Canonical .binary32 m' e' ∧ (e' + 149) * 2 ^ 23 + m' = (t + 149) * 2 ^ 23 + r ∧
      (shiftToTargetExponent .binary32 r t .exact).1.mantissa = m' ∧
      (shiftToTargetExponent .binary32 r t .exact).2 = e' := by
  unfold shiftToTargetExponent shiftToExponent
  dsimp only
  rw [mantissa_shiftRight, mantissa_ofMantissaAndAccuracy]
  rcases Nat.lt_or_eq_of_le hle with hlt | rfl
  · have h : Canonical .binary32 r t := ⟨⟨hpos, hlt, hmin⟩, hnormal⟩
    refine ⟨r, t, h, rfl, ?_, ?_⟩
    · rw [h.targetExponent_eq, Int.sub_self, Int.toNat_zero, Nat.pow_zero, Nat.div_one]
    · rw [h.targetExponent_eq, Int.sub_self, Int.toNat_zero, Int.natCast_zero, Int.add_zero]
  · have htarget : Format.binary32.targetExponent (totalExponent (2 ^ 24) t) = t + 1 := by
      rw [Format.targetExponent, totalExponent, Nat.log2_two_pow]
      have hprecision : (Format.binary32.mantissaBits : Int) = 24 := rfl
      have hleast : Format.binary32.minExponent = -149 := rfl
      rw [hprecision, hleast]
      omega
    have hone : (t + 1 - t).toNat = 1 := by omega
    rw [htarget, hone]
    refine ⟨2 ^ 23, t + 1, ⟨⟨Nat.two_pow_pos 23, by decide, ?_⟩, .inl le_rfl⟩, ?_, rfl, rfl⟩
    · show -149 ≤ t + 1
      omega
    · push_cast
      omega

/-- Rounding finds the nearest number. -/
theorem exists_round_nearest (s : Sign) {m : Nat} {e : Int} (hpos : 0 < m) (hmin : -149 ≤ e) :
    ∃ m' e', ∃ h : Canonical .binary32 m' e',
      UnpackedFloat.round .binary32 s m e = .finite s m' e' h.pos ∧
        (e' + 149) * 2 ^ 23 + m' = nearestMagnitude (m * 2 ^ (e + 149).toNat) := by
  obtain ⟨t, ht⟩ : ∃ t, Format.binary32.targetExponent (totalExponent m e) = t := ⟨_, rfl⟩
  have htarget : t = max ((m.log2 : Int) + 1 + e - 24) (-149) := ht.symm
  obtain ⟨a, ha⟩ : ∃ a, (e - t).toNat = a := ⟨_, rfl⟩
  -- The mantissa is written with an exponent no greater than the one that is aimed at.
  have hunits : m * 2 ^ (e + 149).toNat = m * 2 ^ a * 2 ^ (e - a + 149).toNat := by
    rw [Nat.mul_assoc, ← Nat.pow_add]
    congr 2
    omega
  have hlog : (m * 2 ^ (e + 149).toNat).log2 = m.log2 + (e + 149).toNat := by
    have htotal := totalExponent_mul hpos 0 (e + 149).toNat
    unfold totalExponent at htotal
    omega
  have hshift : (m * 2 ^ (e + 149).toNat).log2 - 23 =
      (e - a + 149).toNat + (t - (e - a)).toNat := by omega
  have hrounded : (ExtendedMantissa.ofMantissaAndAccuracy (m * 2 ^ a) .exact >>>
      (t - (e - a)).toNat).roundedMantissa =
        shifted (m * 2 ^ (e + 149).toNat) ((m * 2 ^ (e + 149).toNat).log2 - 23) := by
    rw [shifted, hshift, shiftRight_add, hunits, shiftRight_exact]
  obtain ⟨hr, hle, hfull⟩ := shifted_bounds (Nat.mul_pos hpos (Nat.two_pow_pos (e + 149).toNat))
  rw [← hrounded] at hr hle hfull
  obtain ⟨m', e', hcanonical, hmagnitude, hm', he'⟩ :=
    exists_carried hr hle (t := t) (by omega) (by omega)
  refine ⟨m', e', hcanonical, ?_, ?_⟩
  · have hfirst : shiftToTargetExponent .binary32 (m * 2 ^ a) (e - a) .exact =
        (ExtendedMantissa.ofMantissaAndAccuracy (m * 2 ^ a) .exact >>> (t - (e - a)).toNat, t) := by
      unfold shiftToTargetExponent shiftToExponent
      rw [totalExponent_mul hpos, ht]
      exact congrArg (Prod.mk _) (by omega)
    have hlast : ∀ p : ExtendedMantissa × Int, p.1.mantissa = m' → p.2 = e' →
        (if h : p.1.mantissa = 0 then UnpackedFloat.zero s
          else .finite s p.1.mantissa p.2 (Nat.pos_of_ne_zero h)) =
            .finite s m' e' hcanonical.pos := by
      rintro ⟨em, exponent⟩ rfl rfl
      exact dif_neg hcanonical.pos.ne'
    unfold UnpackedFloat.round decreaseExponent
    dsimp only
    rw [ht, ha, Nat.shiftLeft_eq, roundWithAccuracy, hfirst]
    exact hlast _ hm' he'
  · rw [hmagnitude, hrounded, nearestMagnitude]
    push_cast
    omega

end BackoffLM.Floats

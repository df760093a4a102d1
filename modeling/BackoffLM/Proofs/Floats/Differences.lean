import BackoffLM.Proofs.Floats.Arithmetic
import BackoffLM.Proofs.Floats.Extended
import BackoffLM.Proofs.Floats.Nearest

/-!
# Differences keep the order

Every finite log probability is a whole number of the least units of single precision (`units`), and
finite log probabilities are ordered as these (`units_le_iff`). A difference of two of them is the
number nearest to the difference of the units, or the infinity beyond all numbers (`number_sub`). So
when less is subtracted from more, the difference is no less (`numLe_sub`).
-/

namespace BackoffLM.LogProb

open Float.Model (Format UnpackedFloat)
open Float.Model.UnpackedFloat
open Floats

variable {x a a' b b' : LogProb}

/-! ## What is unpacked -/

/-- What a log probability is unpacked as says of which kind it is. -/
theorem unpacked_cases (x : LogProb) :
    x.unpacked = .notANumber ∨
      (x.magnitude = 0x7F800000 ∧ x.unpacked = .infinity x.sign) ∨
      (x.magnitude = 0 ∧ x.unpacked = .zero x.sign) ∨
      ∃ m e, ∃ h : Parts x m e, x.unpacked = .finite x.sign m e h.pos := by
  cases hnan : x.isNaN with
  | true => exact .inl (unpacked_of_isNaN hnan)
  | false =>
    rcases isFinite_or hnan with hfinite | hinfinite
    · by_cases hzero : x.magnitude = 0
      · exact .inr (.inr (.inl ⟨hzero, unpacked_of_magnitude_eq_zero hzero⟩))
      · obtain ⟨m, e, hparts⟩ := exists_parts hfinite hzero
        exact .inr (.inr (.inr ⟨m, e, hparts, hparts.unpacked_eq⟩))
    · exact .inr (.inl ⟨hinfinite, unpacked_of_infinite hinfinite⟩)

/-- What is unpacked as a zero is one. -/
theorem magnitude_of_unpacked_zero {s : Sign} (h : x.unpacked = .zero s) : x.magnitude = 0 := by
  rcases unpacked_cases x with hx | ⟨-, hx⟩ | ⟨hzero, -⟩ | ⟨m, e, hparts, hx⟩
  · cases hx.symm.trans h
  · cases hx.symm.trans h
  · exact hzero
  · cases hx.symm.trans h

/-- What is unpacked as an infinity is the one of that sign. -/
theorem infinite_of_unpacked {s : Sign} (h : x.unpacked = .infinity s) :
    x.magnitude = 0x7F800000 ∧ x.sign = s := by
  rcases unpacked_cases x with hx | ⟨hinfinite, hx⟩ | ⟨-, hx⟩ | ⟨m, e, hparts, hx⟩
  · cases hx.symm.trans h
  · exact ⟨hinfinite, UnpackedFloat.infinity.inj (hx.symm.trans h)⟩
  · cases hx.symm.trans h
  · cases hx.symm.trans h

/-- What is unpacked as a number that is no zero has its parts. -/
theorem parts_of_unpacked {s : Sign} {m : Nat} {e : Int} {hpos : 0 < m}
    (h : x.unpacked = .finite s m e hpos) : Parts x m e ∧ x.sign = s := by
  rcases unpacked_cases x with hx | ⟨-, hx⟩ | ⟨-, hx⟩ | ⟨m', e', hparts, hx⟩
  · cases hx.symm.trans h
  · cases hx.symm.trans h
  · cases hx.symm.trans h
  · injection hx.symm.trans h with hs hm he
    exact ⟨hm ▸ he ▸ hparts, hs⟩

/-! ## Units -/

/-- The number with some bits below the sign, in the least units of single precision. -/
def unitsOf (magnitude : Nat) : Nat :=
  (magnitude - (magnitude / 2 ^ 23 - 1) * 2 ^ 23) * 2 ^ (magnitude / 2 ^ 23 - 1)

/-- A finite log probability in the least units of single precision. -/
def units (x : LogProb) : Int := x.sign.apply (unitsOf x.magnitude)

/-- The number nearest to one in units, or the infinity beyond the greatest. -/
def nearestNumber (units : Int) : Int :=
  (if 0 < units then Sign.positive else .negative).apply
    (min (nearestMagnitude units.natAbs) 0x7F800000 : Nat)

/-- The nearest number has the same sign. -/
theorem nearestNumber_apply (s : Sign) (n : Nat) :
    nearestNumber (s.apply n) = s.apply (min (nearestMagnitude n) 0x7F800000 : Nat) := by
  unfold nearestNumber
  cases s with
  | negative =>
    show (if 0 < -(n : Int) then Sign.positive else .negative).apply
      (min (nearestMagnitude (-(n : Int)).natAbs) 0x7F800000 : Nat) = _
    rw [if_neg (by omega), Int.natAbs_neg, Int.natAbs_natCast]
  | positive =>
    rcases Nat.eq_zero_or_pos n with rfl | hpos
    · rfl
    · show (if 0 < (n : Int) then Sign.positive else .negative).apply
        (min (nearestMagnitude (n : Int).natAbs) 0x7F800000 : Nat) = _
      rw [if_pos (by omega), Int.natAbs_natCast]

/-- The nearest number does not decrease. -/
theorem nearestNumber_mono {u v : Int} (h : u ≤ v) : nearestNumber u ≤ nearestNumber v := by
  unfold nearestNumber
  rcases lt_or_ge 0 u with hu | hu
  · have hmono := nearestMagnitude_mono (show u.natAbs ≤ v.natAbs by omega)
    rw [if_pos hu, if_pos (by omega)]
    simp only [Sign.apply]
    omega
  · rcases lt_or_ge 0 v with hv | hv
    · rw [if_neg (by omega), if_pos hv]
      simp only [Sign.apply]
      omega
    · have hmono := nearestMagnitude_mono (show v.natAbs ≤ u.natAbs by omega)
      rw [if_neg (by omega), if_neg (by omega)]
      simp only [Sign.apply]
      omega

/-- A mantissa times two to the exponent, in units. -/
theorem Parts.unitsOf_eq {m : Nat} {e : Int} (h : Parts x m e) :
    unitsOf x.magnitude = m * 2 ^ (e + 149).toNat := by
  obtain ⟨hpos, hlt, hmin, hnormal, hmax, hmagnitude⟩ := h.bounds
  have hexponent : x.magnitude / 2 ^ 23 - 1 = (e + 149).toNat := by omega
  rw [unitsOf, hexponent]
  congr 1
  omega

/-- A zero is no units. -/
theorem units_of_magnitude_eq_zero (h : x.magnitude = 0) : x.units = 0 := by
  rw [units, h]
  cases x.sign <;> rfl

/-- A mantissa with a lesser exponent, in units. -/
theorem Parts.units_eq {m : Nat} {e : Int} (h : Parts x m e) {least : Int} (hleast : least ≤ e)
    (hmin : -149 ≤ least) :
    x.units = x.sign.apply (m <<< (e - least).toNat : Nat) * 2 ^ (least + 149).toNat := by
  have hunits : unitsOf x.magnitude = m <<< (e - least).toNat * 2 ^ (least + 149).toNat := by
    rw [h.unitsOf_eq, Nat.shiftLeft_eq, Nat.mul_assoc, ← Nat.pow_add]
    congr 2
    omega
  rw [units, hunits]
  cases x.sign with
  | negative =>
    show -((m <<< (e - least).toNat * 2 ^ (least + 149).toNat : Nat) : Int) =
      -((m <<< (e - least).toNat : Nat) : Int) * 2 ^ (least + 149).toNat
    push_cast
    ring
  | positive =>
    show ((m <<< (e - least).toNat * 2 ^ (least + 149).toNat : Nat) : Int) =
      ((m <<< (e - least).toNat : Nat) : Int) * 2 ^ (least + 149).toNat
    push_cast
    ring

/-- The bits of a finite number are those of the nearest to it. -/
theorem nearestMagnitude_unitsOf (hx : x.isFinite = true) :
    nearestMagnitude (unitsOf x.magnitude) = x.magnitude := by
  by_cases hzero : x.magnitude = 0
  · rw [hzero]
    rfl
  · obtain ⟨m, e, h⟩ := exists_parts hx hzero
    obtain ⟨m', e', hcanonical, hround, hnearest⟩ := exists_round_nearest x.sign h.pos h.min_le
    have hexact := round_long x.sign h.toCanonical 0
    rw [Nat.pow_zero, Nat.mul_one, Int.natCast_zero, Int.sub_zero, hround] at hexact
    injection hexact with _ hm he
    have hmagnitude := h.magnitude_eq
    rw [h.unitsOf_eq]
    omega

/-- A finite number is the nearest to itself. -/
theorem nearestNumber_units (hx : x.isFinite = true) : nearestNumber x.units = x.number := by
  have hlt : x.magnitude < 0x7F800000 := of_decide_eq_true hx
  rw [units, nearestNumber_apply, nearestMagnitude_unitsOf hx, Nat.min_eq_left hlt.le, number]

/-- Finite numbers are ordered as their units. -/
theorem units_le_iff (ha : a.isFinite = true) (hb : b.isFinite = true) :
    a.units ≤ b.units ↔ a.number ≤ b.number := by
  refine ⟨fun h => ?_, fun h => ?_⟩
  · rw [← nearestNumber_units ha, ← nearestNumber_units hb]
    exact nearestNumber_mono h
  · rcases Int.lt_or_eq_of_le h with hlt | heq
    · by_contra hgt
      have := nearestNumber_mono (Int.not_le.mp hgt).le
      rw [nearestNumber_units ha, nearestNumber_units hb] at this
      exact absurd hlt (Int.not_lt.mpr this)
    · rcases number_eq_iff.mp heq with rfl | ⟨ha0, hb0⟩
      · exact le_rfl
      · rw [units_of_magnitude_eq_zero ha0, units_of_magnitude_eq_zero hb0]

/-! ## Differences -/

/-- What a mantissa and an exponent are packed into is the number that they stand for, or the
infinity when the exponent is too great. -/
theorem number_of_packed {s : Sign} {m : Nat} {e : Int} (h : Canonical .binary32 m e)
    (hx : x.unpacked = unpack _ (pack .binary32 (.finite s m e h.pos))) {n : Nat}
    (hn : (e + 149) * 2 ^ 23 + m = n) :
    x.isNaN = false ∧ x.number = s.apply (min n 0x7F800000 : Nat) := by
  have hlt : m < 2 ^ 24 := h.lt
  have hmin : -149 ≤ e := h.min_le
  rcases lt_or_ge 104 e with hgreat | hle
  · -- The mantissa is filled, as the exponent is not the least.
    have hfull : 2 ^ 23 ≤ m := h.normal_or.resolve_right fun hleast => by
      have hleast' : e = -149 := hleast
      omega
    have hpack : pack .binary32 (.finite s m e h.pos) = packedInfinity .binary32 s := by
      unfold pack
      dsimp only
      refine if_pos ?_
      have hbias : (Format.binary32.exponentBias : Int) = 127 := rfl
      rw [hbias]
      show 2 ^ 8 ≤ (e + 127 + (23 : Nat)).toNat + 1
      omega
    rw [hpack, unpack_packedInfinity] at hx
    obtain ⟨hmagnitude, hsign⟩ := infinite_of_unpacked hx
    refine ⟨?_, ?_⟩
    · rw [isNaN, hmagnitude]
      rfl
    · rw [number_of_infinite hmagnitude, hsign, Nat.min_eq_right (by omega)]
      rfl
  · rw [unpack_pack s h hle] at hx
    obtain ⟨hparts, hsign⟩ := parts_of_unpacked hx
    have hmagnitude := hparts.magnitude_eq
    refine ⟨?_, ?_⟩
    · rw [isNaN, decide_eq_false_iff_not]
      omega
    · rw [number, hsign, Nat.min_eq_left (by omega)]
      congr 1
      omega

/-- What is unpacked as a zero stands for it. -/
theorem number_of_unpacked_zero {s : Sign} (h : x.unpacked = .zero s) :
    x.isNaN = false ∧ x.number = 0 := by
  have hzero := magnitude_of_unpacked_zero h
  refine ⟨?_, number_of_magnitude_eq_zero hzero⟩
  rw [isNaN, hzero]
  rfl

/-- A sum that is rounded is the number nearest to it. -/
theorem number_of_normalize {m e : Int} (hmin : -149 ≤ e) (zeroSign : Sign)
    (hx : x.unpacked = unpack _ (pack .binary32 (UnpackedFloat.normalize .binary32 m e zeroSign))) :
    x.isNaN = false ∧ x.number = nearestNumber (m * 2 ^ (e + 149).toNat) := by
  rcases eq_or_ne m 0 with rfl | hm
  · have hzero : x.unpacked = .zero zeroSign := hx.trans unpack_packedZero
    rw [zero_mul]
    exact number_of_unpacked_zero hzero
  · rw [normalize_of_ne_zero hm] at hx
    generalize hs : (if 0 < m then Sign.positive else Sign.negative) = s at hx
    obtain ⟨m', e', hcanonical, hround, hnearest⟩ :=
      exists_round_nearest s (Int.natAbs_pos.mpr hm) hmin
    rw [hround] at hx
    have happly : m * 2 ^ (e + 149).toNat = s.apply (m.natAbs * 2 ^ (e + 149).toNat : Nat) := by
      rw [← hs]
      split
      · show _ = ((m.natAbs * 2 ^ (e + 149).toNat : Nat) : Int)
        push_cast
        rw [abs_of_pos (by assumption)]
      · show _ = -((m.natAbs * 2 ^ (e + 149).toNat : Nat) : Int)
        push_cast
        rw [abs_of_nonpos (by omega)]
        ring
    rw [happly, nearestNumber_apply]
    exact number_of_packed hcanonical hx hnearest

/-- A difference of finite numbers is the number nearest to it. -/
theorem number_sub (ha : a.isFinite = true) (hb : b.isFinite = true) :
    (a - b).isNaN = false ∧ (a - b).number = nearestNumber (a.units - b.units) := by
  have hunpacked := unpacked_sub a b
  -- A zero has no mantissa: what is subtracted from it or what it is subtracted from is packed.
  by_cases ha0 : a.magnitude = 0
  · rw [unpacked_of_magnitude_eq_zero ha0] at hunpacked
    rw [units_of_magnitude_eq_zero ha0]
    by_cases hb0 : b.magnitude = 0
    · obtain ⟨s, hzero⟩ := unpacked_sub_of_eq hb
        ((number_of_magnitude_eq_zero hb0).trans (number_of_magnitude_eq_zero ha0).symm)
      rw [units_of_magnitude_eq_zero hb0]
      exact number_of_unpacked_zero hzero
    · obtain ⟨m, e, h⟩ := exists_parts hb hb0
      rw [h.unpacked_eq] at hunpacked
      have hunits : 0 - b.units = (-b.sign).apply (unitsOf b.magnitude) := by
        rw [units]
        cases b.sign
        · show 0 - -(unitsOf b.magnitude : Int) = (unitsOf b.magnitude : Int)
          omega
        · show 0 - (unitsOf b.magnitude : Int) = -(unitsOf b.magnitude : Int)
          omega
      rw [hunits, nearestNumber_apply, nearestMagnitude_unitsOf hb]
      exact number_of_packed h.toCanonical hunpacked h.magnitude_eq.symm
  · obtain ⟨m, e, h⟩ := exists_parts ha ha0
    rw [h.unpacked_eq] at hunpacked
    by_cases hb0 : b.magnitude = 0
    · rw [unpacked_of_magnitude_eq_zero hb0] at hunpacked
      rw [units_of_magnitude_eq_zero hb0, Int.sub_zero, units, nearestNumber_apply,
        nearestMagnitude_unitsOf ha]
      exact number_of_packed h.toCanonical hunpacked h.magnitude_eq.symm
    · obtain ⟨m', e', h'⟩ := exists_parts hb hb0
      rw [h'.unpacked_eq] at hunpacked
      have hmin : -149 ≤ min e e' := le_min h.min_le h'.min_le
      rw [h.units_eq (min_le_left e e') hmin, h'.units_eq (min_le_right e e') hmin, ← Int.sub_mul]
      exact number_of_normalize hmin .positive hunpacked

/-- Subtracting no more from no less leaves no less, however the differences are rounded. -/
theorem numLe_sub (ha : a.isFinite = true) (ha' : a'.isFinite = true) (hb : b.isFinite = true)
    (hb' : b'.isFinite = true) (h : a.number ≤ a'.number) (h' : b'.number ≤ b.number) :
    (a - b).numLe (a' - b') = true := by
  obtain ⟨hnan, hnumber⟩ := number_sub ha hb
  obtain ⟨hnan', hnumber'⟩ := number_sub ha' hb'
  rw [numLe_iff, hnumber, hnumber']
  have hunits := (units_le_iff ha ha').mpr h
  have hunits' := (units_le_iff hb' hb).mpr h'
  exact ⟨hnan, hnan', nearestNumber_mono (by omega)⟩

end BackoffLM.LogProb

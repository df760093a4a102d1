import BackoffLM.Index.Bins
import BackoffLM.Proofs.Floats.Order
import BackoffLM.Proofs.Sums

/-!
# The mean of one value

A mean is added up from a negative zero and divided in double precision, and the result is rounded
to single precision. For one finite value each of these steps is exact: double precision holds the
value (`unpack_toDouble`), a negative zero adds nothing (`negZero_add`), dividing by one changes
nothing (`div_one_of_filled`), and rounding finds the value again (`ofDouble_eq`). So the mean
of one finite value is that value, with its sign (`mean_singleton`).
-/

namespace BackoffLM.LogProb

open Float.Model (Format UnpackedFloat totalExponent)
open Float.Model.UnpackedFloat
open Floats

/-! ## Double precision -/

/-- A number in double precision that was unpacked is packed as it was. -/
theorem pack_unpack_double (d : Float.Model) : Float.Model.pack d.unpack = d := by
  rw [Float.Model.pack]
  congr 1
  exact congrArg UInt64.ofBitVec (pack_unpack_of_valid d.valid)

theorem toModel_toDouble (x : LogProb) :
    x.toDouble.toModel = Float.Model.pack (roundTo .binary64 x.unpacked) := by
  show (Float.ofBits (Float.toBits ⟨Float.Model.pack (roundTo .binary64 x.unpacked)⟩)).toModel = _
  rw [Float.ofBits_toBits]

/-- A zero is one in double precision. -/
theorem unpack_toDouble_of_magnitude_eq_zero {x : LogProb} (h : x.magnitude = 0) :
    x.toDouble.toModel.unpack = .zero x.sign := by
  rw [toModel_toDouble, unpacked_of_magnitude_eq_zero h]
  exact unpack_packedZero

/-- Another finite number has a longer mantissa in double precision. -/
theorem unpack_toDouble {x : LogProb} {m : Nat} {e : Int} (h : Parts x m e) :
    ∃ k : Nat, ∃ hwide : Canonical .binary64 (m * 2 ^ k) (e - k),
      2 ^ 52 ≤ m * 2 ^ k ∧ -1074 < e - k ∧
        x.toDouble.toModel.unpack = .finite x.sign (m * 2 ^ k) (e - k) hwide.pos := by
  obtain ⟨hpos, hlt, hmin, -, hmax, -⟩ := h.bounds
  have hlog : m.log2 < 24 := (Nat.log2_lt hpos.ne').mpr hlt
  -- The mantissa is filled.
  have hlow : 2 ^ 52 ≤ m * 2 ^ (52 - m.log2) := by
    calc 2 ^ 52 = 2 ^ m.log2 * 2 ^ (52 - m.log2) := by rw [← Nat.pow_add]; congr 1; omega
      _ ≤ m * 2 ^ (52 - m.log2) := Nat.mul_le_mul_right _ (Nat.log2_self_le hpos.ne')
  have hhigh : m * 2 ^ (52 - m.log2) < 2 ^ 53 := by
    calc m * 2 ^ (52 - m.log2) < 2 ^ (m.log2 + 1) * 2 ^ (52 - m.log2) :=
          Nat.mul_lt_mul_of_pos_right Nat.lt_log2_self (Nat.two_pow_pos _)
      _ = 2 ^ 53 := by rw [← Nat.pow_add]; congr 1; omega
  have hexponent : -1074 < e - (52 - m.log2 : Nat) := by omega
  have hwide : Canonical .binary64 (m * 2 ^ (52 - m.log2)) (e - (52 - m.log2 : Nat)) :=
    ⟨⟨Nat.mul_pos hpos (Nat.two_pow_pos _), hhigh, hexponent.le⟩, .inl hlow⟩
  refine ⟨52 - m.log2, hwide, hlow, hexponent, ?_⟩
  rw [toModel_toDouble, h.unpacked_eq, roundTo, round_short x.sign hpos _ hwide]
  exact unpack_pack x.sign hwide (show e - (52 - m.log2 : Nat) ≤ 971 by omega)

/-! ## Exact steps -/

/-- A negative zero adds nothing. -/
theorem negZero_add (d : Float) : -0.0 + d = d := by
  have hzero : (-0.0 : Float).toModel.unpack = .zero .negative := by
    have hbits : (-0.0 : Float).toModel.toBits = 0x8000000000000000 := by decide +kernel
    show unpack .binary64 (-0.0 : Float).toModel.toBits.toBitVec = _
    rw [hbits]
    rfl
  have hsum : add .binary64 (.zero .negative) d.toModel.unpack = d.toModel.unpack := by
    cases d.toModel.unpack with
    | zero s => cases s <;> rfl
    | _ => rfl
  have hmodel : (-0.0 + d).toModel = d.toModel := by
    show Float.Model.pack (add .binary64 (-0.0 : Float).toModel.unpack d.toModel.unpack) = _
    rw [hzero, hsum, pack_unpack_double]
  exact congrArg Float.ofModel hmodel

/-- The parts of the number one. -/
theorem unpack_one :
    (Float.ofNat 1).toModel.unpack = .finite .positive (2 ^ 52) (-52) (by decide) := by
  have hbits : (Float.ofNat 1).toModel.toBits = 0x3FF0000000000000 := by decide +kernel
  show unpack .binary64 (Float.ofNat 1).toModel.toBits.toBitVec = _
  rw [hbits]
  rfl

/-- Dividing a mantissa that is filled by one leaves it. -/
theorem div_one_of_filled (s : Sign) {m : Nat} {e : Int} (h : Canonical .binary64 m e)
    (hfull : 2 ^ 52 ≤ m) (hmin : -1074 < e) :
    div .binary64 (.finite s m e h.pos) (.finite .positive (2 ^ 52) (-52) (by decide)) =
      .finite s m e h.pos := by
  have hlog : m.log2 = 52 := (Nat.log2_eq_iff h.pos.ne').mpr ⟨hfull, h.lt⟩
  have htarget : min (e - -52) (Format.binary64.targetExponent
      (totalExponent m e - totalExponent (2 ^ 52) (-52))) = e - (1 : Nat) := by
    have hprecision : (Format.binary64.mantissaBits : Int) = 53 := rfl
    have hleast : Format.binary64.minExponent = -1074 := rfl
    rw [Format.targetExponent, totalExponent, totalExponent, hlog, Nat.log2_two_pow, hprecision,
      hleast]
    omega
  have hshift : (e - -52 - (e - (1 : Nat))).toNat = 53 := by omega
  have hquotient : m <<< 53 / 2 ^ 52 = m * 2 ^ 1 := by
    rw [Nat.shiftLeft_eq]
    omega
  have hremainder : m <<< 53 % 2 ^ 52 = 0 := by
    rw [Nat.shiftLeft_eq]
    omega
  have hsign : s / .positive = s := by cases s <;> rfl
  rw [div, divCore]
  dsimp only
  rw [htarget, hshift, hquotient, hremainder, hsign]
  exact roundWithAccuracy_exact s h 1

/-- Rounding to single precision finds a finite value again. -/
theorem ofDouble_eq {x : LogProb} (hx : x.isFinite = true) {d : Float}
    (h : roundTo .binary32 d.toModel.unpack = x.unpacked) : ofDouble d = x := by
  rw [ofDouble, h, unpacked, pack_unpack, toModel_toFloat32 hx]

end BackoffLM.LogProb

namespace BackoffLM.Bins

open Float.Model.UnpackedFloat
open Floats LogProb

/-- The mean of one finite value is that value. -/
theorem mean_singleton {x : LogProb} (hx : x.isFinite = true) : mean [x] = x := by
  show ofDouble ((-0.0 + x.toDouble) / Float.ofNat 1) = x
  rw [negZero_add]
  apply ofDouble_eq hx
  show roundTo .binary32 (Float.Model.pack
    (div .binary64 x.toDouble.toModel.unpack (Float.ofNat 1).toModel.unpack)).unpack = _
  rw [unpack_one]
  by_cases h0 : x.magnitude = 0
  · rw [unpack_toDouble_of_magnitude_eq_zero h0, unpacked_of_magnitude_eq_zero h0]
    have hquotient : div .binary64 (.zero x.sign) (.finite .positive (2 ^ 52) (-52) (by decide)) =
        .zero x.sign := by
      cases x.sign <;> rfl
    rw [hquotient]
    exact congrArg (roundTo .binary32) unpack_packedZero
  · obtain ⟨m, e, h⟩ := exists_parts hx h0
    obtain ⟨k, hwide, hfull, hmin, hdouble⟩ := unpack_toDouble h
    rw [hdouble, div_one_of_filled x.sign hwide hfull hmin, ← hdouble, pack_unpack_double, hdouble,
      h.unpacked_eq]
    exact round_long x.sign h.toCanonical k

end BackoffLM.Bins

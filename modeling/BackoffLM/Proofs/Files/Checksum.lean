import BackoffLM.Crc32
import BackoffLM.Proofs.Files.Codec
import Mathlib.Data.Nat.Bitwise
import Mathlib.Logic.Function.Iterate

/-!
# What the checksum detects

Two lists of bytes that differ only within a burst of at most four bytes have different checksums
(`checksum_ne_of_burst`). The register takes bytes in by shifts, which are linear in exclusive or
(`shift_xor`) and injective (`shift_injective`), because the highest bit of the polynomial is set.
A burst of at most four bytes fits into the register: taking it in byte by byte is adding it as one
number and then shifting (`foldl_step_eq`), so that from one register different bursts lead to
different ones. What follows the burst keeps registers apart, whatever it is
(`foldl_step_injective`).
-/

namespace BackoffLM.Crc32

/-! ## Shifts -/

/-- The bit that falls out is that of odd numbers. -/
theorem and_one_eq_one_iff (r : UInt32) : r &&& 1 = 1 ↔ r.toNat % 2 = 1 := by
  rw [← UInt32.toNat_inj, UInt32.toNat_and]
  exact Eq.congr_left (Nat.and_one_is_mod _)

/-- Moving down by a bit halves. -/
theorem toNat_shiftRight_one (r : UInt32) : (r >>> 1).toNat = r.toNat / 2 := by
  rw [UInt32.toNat_shiftRight]
  exact Nat.shiftRight_one _

/-- When no bit falls out a shift halves. -/
theorem toNat_shift_of_even {r : UInt32} (h : r.toNat % 2 = 0) :
    (shift r).toNat = r.toNat / 2 := by
  rw [shift, if_neg (by rw [and_one_eq_one_iff]; omega), toNat_shiftRight_one]

/-- Shifts are linear. -/
theorem shift_xor (a b : UInt32) : shift (a ^^^ b) = shift a ^^^ shift b := by
  have hbit : (a ^^^ b).toNat % 2 = 1 ↔ ¬ (a.toNat % 2 = 1 ↔ b.toNat % 2 = 1) := by
    rw [UInt32.toNat_xor]
    exact Nat.xor_mod_two_eq_one
  -- What is added for both cancels.
  have hcancel (x y p : UInt32) : x ^^^ p ^^^ (y ^^^ p) = x ^^^ y := by
    calc x ^^^ p ^^^ (y ^^^ p)
        = x ^^^ y ^^^ (p ^^^ p) := by ac_rfl
      _ = x ^^^ y := by rw [UInt32.xor_self, UInt32.xor_zero]
  simp only [shift, and_one_eq_one_iff, hbit, UInt32.shiftRight_xor]
  by_cases ha : a.toNat % 2 = 1
  · by_cases hb : b.toNat % 2 = 1
    · rw [if_neg (not_not_intro (iff_of_true ha hb)), if_pos ha, if_pos hb, hcancel]
    · rw [if_pos fun h => hb (h.mp ha), if_pos ha, if_neg hb]
      ac_rfl
  · by_cases hb : b.toNat % 2 = 1
    · rw [if_pos fun h => ha (h.mpr hb), if_neg ha, if_pos hb, UInt32.xor_assoc]
    · rw [if_neg (not_not_intro (iff_of_false ha hb)), if_neg ha, if_neg hb]

/-- Only from zero does a shift lead to zero. -/
theorem eq_zero_of_shift_eq_zero {r : UInt32} (h : shift r = 0) : r = 0 := by
  have hr := r.toNat_lt
  by_cases hodd : r.toNat % 2 = 1
  · -- The polynomial was added, whose highest bit no moved register has.
    rw [shift, if_pos ((and_one_eq_one_iff r).mpr hodd), UInt32.xor_eq_zero_iff] at h
    have hhalf := congrArg UInt32.toNat h
    rw [toNat_shiftRight_one] at hhalf
    have hpolynomial : (0xEDB88320 : UInt32).toNat = 0xEDB88320 := rfl
    omega
  · have hhalf := toNat_shift_of_even (r := r) (by omega)
    rw [h, UInt32.toNat_zero] at hhalf
    exact UInt32.toNat_inj.mp (by rw [UInt32.toNat_zero]; omega)

/-- Shifts keep registers apart. -/
theorem shift_injective : Function.Injective shift := by
  intro a b h
  rw [← UInt32.xor_eq_zero_iff, ← shift_xor] at h
  exact UInt32.xor_eq_zero_iff.mp (eq_zero_of_shift_eq_zero h)

/-- Several shifts are linear too. -/
theorem iterate_shift_xor (n : Nat) (a b : UInt32) :
    shift^[n] (a ^^^ b) = shift^[n] a ^^^ shift^[n] b := by
  induction n with
  | zero => rfl
  | succ n ih => simp only [Function.iterate_succ_apply', ih, shift_xor]

/-- A number whose lowest bits are zero is moved down by them. -/
theorem iterate_shift_ofNat {n m : Nat} (h : 2 ^ n * m < UInt32.size) :
    shift^[n] (UInt32.ofNat (2 ^ n * m)) = UInt32.ofNat m := by
  induction n generalizing m with
  | zero => rw [pow_zero, one_mul, Function.iterate_zero_apply]
  | succ n ih =>
    have hdouble : 2 ^ (n + 1) * m = 2 ^ n * (2 * m) := by rw [pow_succ, mul_assoc]
    rw [hdouble] at h ⊢
    have hle : 2 * m ≤ 2 ^ n * (2 * m) := Nat.le_mul_of_pos_left _ (Nat.two_pow_pos n)
    have hm : (UInt32.ofNat (2 * m)).toNat = 2 * m := UInt32.toNat_ofNat_of_lt' (by omega)
    have hm' : (UInt32.ofNat m).toNat = m := UInt32.toNat_ofNat_of_lt' (by omega)
    rw [Function.iterate_succ_apply', ih h]
    refine UInt32.toNat_inj.mp ?_
    rw [toNat_shift_of_even (by omega), hm, hm']
    omega

/-! ## Bytes -/

/-- A byte is added and shifted through. -/
theorem step_eq (r : UInt32) (b : UInt8) : step r b = shift^[8] (r ^^^ b.toUInt32) := rfl

/-- A byte and the bytes above it have no bits in common. -/
theorem ofNat_toNat_add (b : UInt8) (n : Nat) :
    UInt32.ofNat (b.toNat + 256 * n) = b.toUInt32 ^^^ UInt32.ofNat (2 ^ 8 * n) := by
  have hb : b.toNat < 2 ^ 8 := b.toNat_lt
  rw [← UInt32.ofNat_uInt8ToNat, ← UInt32.ofNat_xor, Nat.add_comm]
  congr 1
  refine Nat.eq_of_testBit_eq fun i => ?_
  rw [Nat.testBit_two_pow_mul_add (i := 8) n hb, Nat.testBit_xor, Nat.testBit_two_pow_mul]
  split
  case isTrue hi => simp [Nat.not_le.mpr hi]
  case isFalse hi =>
    have hle : 2 ^ 8 ≤ 2 ^ i := Nat.pow_le_pow_right (by decide) (by omega)
    simp [Nat.testBit_lt_two_pow (Nat.lt_of_lt_of_le hb hle), Nat.not_lt.mp hi]

/-- At most four bytes are taken in as one number. -/
theorem foldl_step_eq (r : UInt32) {bytes : List UInt8} (h : bytes.length ≤ 4) :
    bytes.foldl step r =
      shift^[8 * bytes.length] (r ^^^ UInt32.ofNat (ofLittleEndian bytes)) := by
  induction bytes generalizing r with
  | nil => exact UInt32.xor_zero.symm
  | cons b bytes ih =>
    rw [List.length_cons] at h
    -- The later bytes lie above the first, so that they fit and are moved down to where they start.
    have hrest : 2 ^ 8 * ofLittleEndian bytes < UInt32.size := by
      calc 2 ^ 8 * ofLittleEndian bytes
          < 256 * wordRange bytes.length := Nat.mul_lt_mul_of_pos_left (ofLittleEndian_lt bytes)
            (by decide)
        _ ≤ 256 * wordRange 3 :=
          Nat.mul_le_mul_left 256 (Nat.pow_le_pow_right (by decide) (by omega))
    calc bytes.foldl step (step r b)
        = shift^[8 * bytes.length] (shift^[8] (r ^^^ b.toUInt32) ^^^
            shift^[8] (UInt32.ofNat (2 ^ 8 * ofLittleEndian bytes))) := by
          rw [ih _ (by omega), step_eq, iterate_shift_ofNat hrest]
      _ = shift^[8 * bytes.length] (shift^[8] (r ^^^
            (b.toUInt32 ^^^ UInt32.ofNat (2 ^ 8 * ofLittleEndian bytes)))) := by
          rw [← iterate_shift_xor, UInt32.xor_assoc]
      _ = shift^[8 * (b :: bytes).length] (r ^^^ UInt32.ofNat (ofLittleEndian (b :: bytes))) := by
          rw [← ofNat_toNat_add, ← Function.iterate_add_apply]
          rfl

/-- From one register different bursts of at most four bytes lead to different registers. -/
theorem foldl_step_inj {r : UInt32} {burst burst' : List UInt8}
    (hlength : burst.length = burst'.length) (hburst : burst.length ≤ 4)
    (h : burst.foldl step r = burst'.foldl step r) : burst = burst' := by
  have hrange : ∀ bytes : List UInt8, bytes.length ≤ 4 → ofLittleEndian bytes < UInt32.size :=
    fun bytes hbytes => Nat.lt_of_lt_of_le (ofLittleEndian_lt bytes)
      (Nat.pow_le_pow_right (by decide) hbytes)
  rw [foldl_step_eq r hburst, foldl_step_eq r (hlength ▸ hburst), ← hlength] at h
  -- Both bursts are as long, so that they are shifted through as often.
  have hword := (UInt32.xor_right_inj r).mp (shift_injective.iterate _ h)
  have hnumber := congrArg UInt32.toNat hword
  rw [UInt32.toNat_ofNat_of_lt' (hrange burst hburst),
    UInt32.toNat_ofNat_of_lt' (hrange burst' (hlength ▸ hburst))] at hnumber
  rw [← littleEndian_ofLittleEndian burst, hlength, hnumber, littleEndian_ofLittleEndian]

/-- Different registers are different after the same bytes. -/
theorem foldl_step_injective (bytes : List UInt8) :
    Function.Injective fun r => bytes.foldl step r := by
  induction bytes with
  | nil => exact Function.injective_id
  | cons b bytes ih =>
    intro r r' h
    have hstep : step r b = step r' b := ih h
    rw [step_eq, step_eq] at hstep
    exact (UInt32.xor_left_inj _).mp (shift_injective.iterate 8 hstep)

/-- Bytes that differ within a burst of at most four have different checksums. -/
theorem checksum_ne_of_burst {burst burst' : List UInt8} (hlength : burst.length = burst'.length)
    (hburst : burst.length ≤ 4) (hne : burst ≠ burst') (before after : List UInt8) :
    checksum (before ++ burst ++ after) ≠ checksum (before ++ burst' ++ after) := by
  intro h
  have hregister := (UInt32.xor_left_inj _).mp h
  rw [List.foldl_append, List.foldl_append, List.foldl_append, List.foldl_append] at hregister
  exact hne (foldl_step_inj hlength hburst (foldl_step_injective after hregister))

end BackoffLM.Crc32

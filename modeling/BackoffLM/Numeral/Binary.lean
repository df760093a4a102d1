import BackoffLM.LogProb
import BackoffLM.Numeral.Power

/-!
# Binary numbers taken apart

A finite binary number is a whole mantissa times a power of two. `Binary` adds the sign and whether
the gap to the next number below is half the gap above, which is so at the least mantissa of every
exponent but the first. From these the reals that round to the number are known (`Binary.rounds`).
-/

namespace BackoffLM.Numeral

/-- A finite binary number `± mantissa · 2 ^ exponent`. -/
structure Binary where
  negative : Bool
  mantissa : Nat
  exponent : Int
  /-- The number below is half as far away as the number above. -/
  tightBelow : Bool
  deriving DecidableEq, Repr

/-- What a pattern of bits stands for. -/
inductive Number where
  | finite (b : Binary)
  | infinite (negative : Bool)
  | notANumber
  deriving DecidableEq, Repr

/-- Takes a pattern of one sign bit, `exponentBits` and `fractionBits` apart. -/
def Number.ofBits (exponentBits fractionBits pattern : Nat) : Number :=
  let fraction := pattern % pow2 fractionBits
  let biased := pattern / pow2 fractionBits % pow2 exponentBits
  let negative := pattern / pow2 (fractionBits + exponentBits) % 2 == 1
  let unit : Int := 1 - (Int.ofNat (pow2 (exponentBits - 1)) - 1) - Int.ofNat fractionBits
  if biased == pow2 exponentBits - 1 then
    if fraction == 0 then .infinite negative else .notANumber
  else if biased == 0 then .finite ⟨negative, fraction, unit, false⟩
  else
    -- Above the least exponent the leading bit of the mantissa is not stored.
    .finite ⟨negative, pow2 fractionBits + fraction, unit + Int.ofNat (biased - 1),
      fraction == 0 && 1 < biased⟩

/-- A log probability taken apart. -/
def Number.ofLogProb (x : LogProb) : Number := .ofBits 8 23 x.bits.toNat

/-- A double-precision number taken apart. -/
def Number.ofDouble (x : Float) : Number := .ofBits 11 52 x.toBits.toNat

namespace Binary

/-- Compares `x · 10 ^ k` with `y · 2 ^ q`. -/
def compareScaled (x : Nat) (k : Int) (y : Nat) (q : Int) : Ordering :=
  compare (x * pow10 k.toNat * pow2 (-q).toNat) (y * pow2 q.toNat * pow10 (-k).toNat)

/-- The whole part of the magnitude over `10 ^ k`. -/
def floorAt (b : Binary) (k : Int) : Nat :=
  b.mantissa * pow2 b.exponent.toNat * pow10 (-k).toNat /
    (pow10 k.toNat * pow2 (-b.exponent).toNat)

/-- Whether `d · 10 ^ k` rounds to the magnitude: it lies at most half a gap away, and at exactly
half a gap only if the mantissa is even. -/
def rounds (b : Binary) (d : Nat) (k : Int) : Bool :=
  -- The ends are half a gap away, in quarters of the last place: below a tight gap that is one.
  let low := 4 * b.mantissa - (if b.tightBelow then 1 else 2)
  let high := 4 * b.mantissa + 2
  let fromLow := compareScaled d k low (b.exponent - 2)
  let fromHigh := compareScaled d k high (b.exponent - 2)
  if b.mantissa % 2 == 0 then fromLow.isGE && fromHigh.isLE else fromLow.isGT && fromHigh.isLT

/-- The number of digits before the point, for a magnitude from 1 on; below that, minus the number
of zeros after the point. The magnitude `v` is not zero and `10 ^ (n - 1) ≤ v < 10 ^ n`. -/
def pointPosition (b : Binary) : Int :=
  let numerator := b.mantissa * pow2 b.exponent.toNat
  let denominator := pow2 (-b.exponent).toNat
  if denominator ≤ numerator then Int.ofNat (Nat.toDigits 10 (numerator / denominator)).length
  else
    -- Below 1 the zeros after the point are one fewer than the digits of the inverse.
    let inverse := (denominator - 1) / numerator
    1 - Int.ofNat (Nat.toDigits 10 inverse).length

end Binary

end BackoffLM.Numeral

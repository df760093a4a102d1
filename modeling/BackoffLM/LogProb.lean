import BackoffLM.Numeral.Decimal

/-!
# Log probabilities

Every weight of a model, and every score, is a base-ten logarithm in single precision. A `LogProb`
is kept as its 32 bits: equality is equality of the bits, and what a file stores is what a model
holds. Arithmetic is that of IEEE 754, rounding to nearest with ties to even; sums are taken from
left to right, and `numEq` and `numLt` compare as numbers do.
-/

namespace BackoffLM

/-- A base-ten logarithm of a probability, or a weight added to one, in single precision. -/
structure LogProb where
  /-- The IEEE 754 bits. -/
  bits : UInt32
  deriving DecidableEq, Repr, Inhabited

namespace LogProb

/-- Zero, the logarithm of certainty. -/
def zero : LogProb := ⟨0⟩

/-- Zero with its sign bit set: adding it changes no number, so an empty sum is this. -/
def negZero : LogProb := ⟨0x80000000⟩

/-- The logarithm of probability zero. -/
def negInfinity : LogProb := ⟨0xFF800000⟩

/-- The number itself. -/
def toFloat32 (x : LogProb) : Float32 := Float32.ofBits x.bits

/-- The bits of a number. -/
def ofFloat32 (x : Float32) : LogProb := ⟨x.toBits⟩

instance : Add LogProb := ⟨fun a b => ofFloat32 (a.toFloat32 + b.toFloat32)⟩

instance : Sub LogProb := ⟨fun a b => ofFloat32 (a.toFloat32 - b.toFloat32)⟩

/-- The sum from left to right. -/
def sum (xs : List LogProb) : LogProb := xs.foldl (· + ·) negZero

/-- Equality as numbers: the zeros are equal and a NaN equals nothing. -/
def numEq (a b : LogProb) : Bool := a.toFloat32 == b.toFloat32

/-- Order as numbers: false when either is a NaN. -/
def numLt (a b : LogProb) : Bool := a.toFloat32 < b.toFloat32

/-- Order as numbers, or equality. -/
def numLe (a b : LogProb) : Bool := a.toFloat32 ≤ b.toFloat32

/-- The bits below the sign. -/
def magnitude (x : LogProb) : Nat := x.bits.toNat % 0x80000000

/-- Whether the sign bit is set. -/
def isNegative (x : LogProb) : Bool := 0x80000000 ≤ x.bits.toNat

/-- Neither an infinity nor a NaN. -/
def isFinite (x : LogProb) : Bool := x.magnitude < 0x7F800000

/-- A NaN has magnitude bits above those of infinity. -/
def isNaN (x : LogProb) : Bool := 0x7F800000 < x.magnitude

/-- A whole number that orders the bits as the numbers they stand for, with `-0` before `0`. -/
def rank (x : LogProb) : Int :=
  if x.isNegative then -(Int.ofNat x.magnitude) - 1 else Int.ofNat x.magnitude

/-- Rounds a number to the mantissas of a format, a tie going to the even neighbour. -/
def roundTo (format : Float.Model.Format) :
    Float.Model.UnpackedFloat → Float.Model.UnpackedFloat
  | .finite sign mantissa exponent _ =>
    Float.Model.UnpackedFloat.round format sign mantissa exponent
  | other => other

/-- The same number in double precision. -/
def toDouble (x : LogProb) : Float :=
  Float.ofBits (Float.Model.pack (roundTo .binary64 x.toFloat32.toModel.unpack)).toBits

/-- The nearest number in single precision, a tie going to the even neighbour. -/
def ofDouble (x : Float) : LogProb :=
  ⟨(Float32.Model.pack (roundTo .binary32 x.toModel.unpack)).toBits⟩

/-- Reads a numeral. -/
def read? (cs : List Char) : Option LogProb :=
  (Numeral.Decimal.read cs).map fun d => ⟨d.toSingle⟩

end LogProb

end BackoffLM

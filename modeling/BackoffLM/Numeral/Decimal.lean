import BackoffLM.Numeral.Integer

/-!
# Reading decimal numerals

A numeral is an optional sign and then `inf`, `infinity` or `nan` in any case, or digits with at
most one point and an optional exponent; at least one digit stands beside the point. `Decimal.read`
gives its exact value, and `toSingle` and `toDouble` the binary number nearest to it, a tie going to
the even neighbour.
-/

namespace BackoffLM.Numeral

/-- The exact value of a numeral. -/
inductive Decimal where
  /-- `± digits · 10 ^ exponent` -/
  | finite (negative : Bool) (digits : Nat) (exponent : Int)
  | infinite (negative : Bool)
  | notANumber (negative : Bool)
  deriving DecidableEq, Repr

namespace Decimal

/-- The value of a run of digits read onto `value`. -/
def digitsValue (value : Nat) (ds : List Char) : Nat :=
  ds.foldl (fun v c => v * 10 + (c.toNat - '0'.toNat)) value

/-- Splits the leading digits off. -/
def spanDigits (cs : List Char) : List Char × List Char :=
  (cs.takeWhile Char.isDigit, cs.dropWhile Char.isDigit)

/-- The exponent after its letter: an optional sign and at least one digit, to the end. -/
def exponent? (cs : List Char) : Option Int :=
  let magnitude? (ds : List Char) : Option Nat :=
    if ds.isEmpty || !ds.all Char.isDigit then none else some (digitsValue 0 ds)
  match cs with
  | '+' :: ds => (magnitude? ds).map Int.ofNat
  | '-' :: ds => (magnitude? ds).map fun n => -Int.ofNat n
  | ds => (magnitude? ds).map Int.ofNat

/-- Reads digits, a point, digits and an exponent. -/
def readFinite (negative : Bool) (cs : List Char) : Option Decimal :=
  let (whole, afterWhole) := spanDigits cs
  let (fraction, rest) :=
    match afterWhole with
    | '.' :: more => spanDigits more
    | more => ([], more)
  if whole.isEmpty && fraction.isEmpty then none
  else
    -- The digits are one whole number, and those after the point lower its exponent.
    let digits := digitsValue (digitsValue 0 whole) fraction
    let finish (e : Int) : Decimal := .finite negative digits (e - Int.ofNat fraction.length)
    match rest with
    | [] => some (finish 0)
    | c :: more => if c == 'e' || c == 'E' then (exponent? more).map finish else none

/-- Reads what follows the sign. -/
def readUnsigned (negative : Bool) (cs : List Char) : Option Decimal :=
  let lower := cs.map Char.toLower
  if lower == "inf".toList || lower == "infinity".toList then some (.infinite negative)
  else if lower == "nan".toList then some (.notANumber negative)
  else readFinite negative cs

/-- Reads a numeral. -/
def read : List Char → Option Decimal
  | '+' :: cs => readUnsigned false cs
  | '-' :: cs => readUnsigned true cs
  | cs => readUnsigned false cs

/-- A power of ten beyond every binary number of interest, in either direction. -/
def farExponent : Nat := 400

/-- Digits and an exponent that round to the same binary numbers, with the exponent kept small: past
`10 ^ 400` a number that is not zero counts as infinite, and below `10 ^ -400` as zero. -/
def bounded (digits : Nat) (exponent : Int) : Nat × Int :=
  if Int.ofNat farExponent < exponent then (digits, Int.ofNat farExponent)
  else if exponent + Int.ofNat (digits.log2 + 1) < -Int.ofNat farExponent then (0, 0)
  else (digits, exponent)

/-- The bits of the single-precision number nearest to a numeral's value. -/
def toSingle (d : Decimal) : UInt32 :=
  let signed (negative : Bool) (bits : UInt32) : UInt32 :=
    if negative then bits ||| 0x80000000 else bits
  match d with
  | .finite negative digits exponent =>
    let (digits, exponent) := bounded digits exponent
    signed negative (Float32.ofScientific digits (exponent < 0) exponent.natAbs).toBits
  | .infinite negative => signed negative 0x7F800000
  | .notANumber negative => signed negative 0x7FC00000

/-- The double-precision number nearest to a numeral's value. -/
def toDouble (d : Decimal) : Float :=
  let signed (negative : Bool) (x : Float) : Float := if negative then -x else x
  match d with
  | .finite negative digits exponent =>
    let (digits, exponent) := bounded digits exponent
    signed negative (Float.ofScientific digits (exponent < 0) exponent.natAbs)
  | .infinite negative => signed negative (Float.ofBits 0x7FF0000000000000)
  | .notANumber _ => Float.ofBits 0x7FF8000000000000

end Decimal

end BackoffLM.Numeral

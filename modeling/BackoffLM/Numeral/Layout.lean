import BackoffLM.Numeral.Shortest

/-!
# Writing numbers

A `Style` holds the decisions of an output format: which numbers are written with a point alone and
which with an exponent, what whole numbers look like, and where ties go. `Number.render` writes the
fewest digits that read back in a style; `Number.fixed` writes a set number of places, a half going
to the even neighbour.
-/

namespace BackoffLM.Numeral

/-- The decisions of a format that writes the fewest digits. -/
structure Style where
  /-- The least power of ten of a leading digit that is written without an exponent. -/
  least : Int
  /-- The greatest such power. -/
  greatest : Int
  /-- Whole numbers end in `.0`. -/
  pointZero : Bool
  /-- An exponent that is not negative has a plus sign. -/
  plus : Bool
  tie : Tie

/-- `n` zeros. -/
def zeros (n : Nat) : List Char := List.replicate n '0'

/-- The decimal digits of a whole number. -/
def digitsOf (n : Nat) : List Char := Nat.toDigits 10 n

/-- Digits with a point after the first `point` of them; zeros fill what is missing. -/
def positional (pointZero : Bool) (digits : List Char) (point : Int) : List Char :=
  let count := digits.length
  if point ≤ 0 then '0' :: '.' :: zeros (-point).toNat ++ digits
  else if count ≤ point.toNat then
    digits ++ zeros (point.toNat - count) ++ (if pointZero then ['.', '0'] else [])
  else digits.take point.toNat ++ '.' :: digits.drop point.toNat

/-- One digit before the point, the rest after it, and the exponent of ten. -/
def scientific (plus : Bool) (digits : List Char) (point : Int) : List Char :=
  let exponent := point - 1
  let sign : List Char := if exponent < 0 then ['-'] else if plus then ['+'] else []
  let fraction := digits.drop 1
  digits.take 1 ++ (if fraction.isEmpty then [] else '.' :: fraction) ++
    'e' :: sign ++ digitsOf exponent.natAbs

/-- The digits of a finite number in a style, and its sign. -/
def Binary.render (style : Style) (b : Binary) : List Char :=
  let (digits, point) : List Char × Int :=
    if b.mantissa == 0 then (['0'], 1)
    else
      let s := b.shortest style.tie
      let digits := digitsOf s.digits
      (digits, s.exponent + Int.ofNat digits.length)
  let text :=
    if style.least ≤ point - 1 && point - 1 ≤ style.greatest then
      positional style.pointZero digits point
    else scientific style.plus digits point
  if b.negative then '-' :: text else text

/-- The quotient rounded to the nearest whole number, a half to the even one. -/
def roundDiv (numerator denominator : Nat) : Nat :=
  let q := numerator / denominator
  let r := 2 * (numerator % denominator)
  if r < denominator || (r == denominator && q % 2 == 0) then q else q + 1

/-- A finite number with `places` digits after the point. -/
def Binary.fixed (places : Nat) (b : Binary) : List Char :=
  let scaled :=
    roundDiv (b.mantissa * pow2 b.exponent.toNat * pow10 places) (pow2 (-b.exponent).toNat)
  let digits := digitsOf scaled
  -- A number below 1 has a zero before the point.
  let digits := zeros (places + 1 - digits.length) ++ digits
  let whole := digits.length - places
  let text := digits.take whole ++ '.' :: digits.drop whole
  if b.negative then '-' :: text else text

/-- What a value that is not finite is called. -/
def Number.render (finite : Binary → List Char) : Number → String
  | .finite b => String.ofList (finite b)
  | .infinite negative => if negative then "-inf" else "inf"
  | .notANumber => "NaN"

/-- Digits without an exponent, however long. -/
def Style.plain : Style := ⟨-400, 400, false, false, .away⟩

/-- Digits with an exponent, always. -/
def Style.exponential : Style := ⟨1, 0, false, false, .away⟩

/-- Text without an exponent. -/
def Number.plain (n : Number) : String := n.render (Binary.render .plain)

/-- Text with an exponent. -/
def Number.exponential (n : Number) : String := n.render (Binary.render .exponential)

/-- Text with a set number of places. -/
def Number.places (count : Nat) (n : Number) : String := n.render (Binary.fixed count)

end BackoffLM.Numeral

import BackoffLM.Numeral.Binary

/-!
# The fewest digits that read back

`shortest` finds the decimal with the fewest significant digits that rounds to a binary number, and
among those of that length the nearest one. For each length it looks at the two neighbours of the
number on the grid of that length: if any point of the grid rounds to the number, one of these does.
Which neighbour an exact tie goes to is the caller's choice.
-/

namespace BackoffLM.Numeral

/-- Where an exact tie between two decimals goes. -/
inductive Tie where
  | away
  | toEven
  deriving DecidableEq, Repr

/-- The decimal `digits · 10 ^ exponent`. -/
structure Scaled where
  digits : Nat
  exponent : Int
  deriving DecidableEq, Repr

/-- Moves up to `fuel` zeros at the end of the digits to the exponent. -/
def Scaled.strip : (fuel : Nat) → Scaled → Scaled
  | 0, s => s
  | fuel + 1, s =>
    if s.digits != 0 && s.digits % 10 == 0 then strip fuel ⟨s.digits / 10, s.exponent + 1⟩ else s

namespace Binary

/-- The neighbour of the magnitude on the grid of multiples of `10 ^ k` that rounds to it; of two,
the nearer. -/
def onGrid (tie : Tie) (b : Binary) (k : Int) : Option Scaled :=
  let d := b.floorAt k
  match b.rounds d k, b.rounds (d + 1) k with
  | false, false => none
  | true, false => some ⟨d, k⟩
  | false, true => some ⟨d + 1, k⟩
  | true, true =>
    -- The point halfway between the two tells which is nearer.
    match compareScaled (2 * d + 1) k (2 * b.mantissa) b.exponent with
    | .gt => some ⟨d, k⟩
    | .lt => some ⟨d + 1, k⟩
    | .eq =>
      match tie with
      | .away => some ⟨d + 1, k⟩
      | .toEven => some (if d % 2 == 0 then ⟨d, k⟩ else ⟨d + 1, k⟩)

/-- Tries grids of `count` digits and more, `fuel` of them. -/
def shortestFrom (tie : Tie) (b : Binary) (point : Int) : (fuel count : Nat) → Scaled
  | 0, count => ⟨b.floorAt (point - Int.ofNat count), point - Int.ofNat count⟩
  | fuel + 1, count =>
    match b.onGrid tie (point - Int.ofNat count) with
    | some s => s
    | none => shortestFrom tie b point fuel (count + 1)

/-- The decimal of fewest digits that rounds to a magnitude that is not zero. Seventeen digits
always suffice in double precision. -/
def shortest (tie : Tie) (b : Binary) : Scaled :=
  (b.shortestFrom tie b.pointPosition 17 1).strip 1

end Binary

end BackoffLM.Numeral

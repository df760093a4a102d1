/-!
# Reading whole numbers

A whole number is written in decimal digits after an optional plus sign. Digits are read from the
left, and the first one that is not a digit, or that carries the value past the limit, is what the
reading fails on.
-/

namespace BackoffLM.Numeral

/-- Why a text is no whole number. -/
inductive IntegerFault where
  | empty
  | invalidDigit
  | tooLarge
  deriving DecidableEq, Repr

/-- The wording of a fault. -/
def IntegerFault.message : IntegerFault → String
  | .empty => "cannot parse integer from empty string"
  | .invalidDigit => "invalid digit found in string"
  | .tooLarge => "number too large to fit in target type"

/-- The value of an ASCII digit. -/
def digit? (c : Char) : Option Nat :=
  if c.isDigit then some (c.toNat - '0'.toNat) else none

/-- Reads digits onto `value`, which must not pass `limit`. -/
def readDigits (limit value : Nat) : List Char → Except IntegerFault Nat
  | [] => .ok value
  | c :: cs =>
    match digit? c with
    | none => .error .invalidDigit
    | some d =>
      if limit < value * 10 + d then .error .tooLarge
      else readDigits limit (value * 10 + d) cs

/-- Reads a whole number up to `limit`. -/
def readNat (limit : Nat) : List Char → Except IntegerFault Nat
  | [] => .error .empty
  | ['+'] => .error .invalidDigit
  | '+' :: cs => readDigits limit 0 cs
  | cs => readDigits limit 0 cs

/-- The greatest number of 64 bits. -/
def maxWord64 : Nat := 0xFFFFFFFFFFFFFFFF

end BackoffLM.Numeral

import BackoffLM.Toml.Quoted
import BackoffLM.Toml.Value

/-!
# Numbers, dates and times in TOML

A whole number is written in decimal without leading zeros, or after `0x`, `0o` or `0b` in another
base, and fits 64 bits with sign; a fraction or an exponent makes it a floating-point number, as do
the names `inf` and `nan`. Between two digits there may be one underscore. A floating-point number
above the range is refused. Dates and times must exist.
-/

namespace BackoffLM.Toml

/-- Reads digits with single underscores between them, and leaves the underscores out. -/
def readDigits (isDigit : Char → Bool) : Reader (List Char)
  | [] => none
  | c :: s =>
    if !isDigit c then none
    else
      match s with
      -- An underscore must have a digit after it.
      | '_' :: rest => (readDigits isDigit rest).map fun (ds, rest) => (c :: ds, rest)
      | s => some ((readDigits isDigit s).elim ([c], s) fun (ds, rest) => (c :: ds, rest))

/-- Reads a sign if there is one. -/
def readSign : List Char → Option Char × List Char
  | '+' :: s => (some '+', s)
  | '-' :: s => (some '-', s)
  | s => (none, s)

/-- Reads the digits of a whole decimal number: a zero stands alone. -/
def readWhole : Reader (List Char)
  | '0' :: s => some (['0'], s)
  | s => readDigits Char.isDigit s

/-- Reads a point and the digits after it. -/
def readFraction : Reader (List Char)
  | '.' :: s => readDigits Char.isDigit s
  | _ => none

/-- Reads an exponent. -/
def readExponent : Reader (List Char)
  | c :: s =>
    if c = 'e' ∨ c = 'E' then
      let (sign, s) := readSign s
      (readDigits Char.isDigit s).map fun (ds, rest) => ('e' :: sign.toList ++ ds, rest)
    else none
  | [] => none

/-- The greatest magnitude of a whole number with a sign. -/
def magnitudeLimit (negative : Bool) : Nat :=
  if negative then 0x8000000000000000 else 0x7FFFFFFFFFFFFFFF

/-- The value of digits in a base. -/
def digitsValue (base : Nat) (ds : List Char) : Nat :=
  ds.foldl (fun n c => n * base + (hexDigit? c).getD 0) 0

/-- A whole number in range. -/
def integer? (negative : Bool) (n : Nat) : Option Value :=
  if magnitudeLimit negative < n then none
  else some (.integer (if negative then -Int.ofNat n else Int.ofNat n))

/-- A floating-point number from digits, which may not lead above the range. -/
def number? (d : Numeral.Decimal) : Option Value :=
  if d.toDouble.toBits = 0x7FF0000000000000 then none else some (.number d)

/-- Reads a whole number in another base, after its `0`. -/
def readBased : Reader Value
  | letter :: s => do
    let base ←
      if letter = 'x' then some 16 else if letter = 'o' then some 8
      else if letter = 'b' then some 2 else none
    let isDigit (c : Char) : Bool := (hexDigit? c).any (· < base)
    let (ds, rest) ← readDigits isDigit s
    let value ← integer? false (digitsValue base ds)
    some (value, rest)
  | [] => none

/-- Reads a number written in decimal. -/
def readDecimal (s : List Char) : Option (Value × List Char) := do
  let (sign, s) := readSign s
  let negative := sign = some '-'
  let (whole, s) ← readWhole s
  let withExponent (text : List Char) (s : List Char) : Option (Value × List Char) := do
    let (exponent, rest) := (readExponent s).getD ([], s)
    let d ← Numeral.Decimal.readUnsigned negative (text ++ exponent)
    let value ← number? d
    some (value, rest)
  match s with
  | '.' :: _ => do
    let (fraction, s) ← readFraction s
    withExponent (whole ++ '.' :: fraction) s
  | c :: _ =>
    if c = 'e' ∨ c = 'E' then do
      -- Without a point before it the letter must start an exponent.
      let _ ← readExponent s
      withExponent whole s
    else (integer? negative (digitsValue 10 whole)).map fun value => (value, s)
  | [] => (integer? negative (digitsValue 10 whole)).map fun value => (value, s)

/-- Reads the name of a number. -/
def readNamed (s : List Char) : Option (Value × List Char) :=
  let (sign, s) := readSign s
  let negative := sign = some '-'
  match expect "inf".toList s, expect "nan".toList s with
  | some rest, _ => some (.number (.infinite negative), rest)
  | _, some rest => some (.number (.notANumber negative), rest)
  | none, none => none

/-! ## Dates and times -/

/-- Reads a number of exactly `count` digits from `low` to `high`. -/
def readPart (count low high : Nat) (s : List Char) : Option (Nat × List Char) :=
  let ds := s.take count
  let n := digitsValue 10 ds
  if ds.length = count ∧ ds.all Char.isDigit ∧ low ≤ n ∧ n ≤ high then some (n, s.drop count)
  else none

/-- The number of days of a month. -/
def daysOf (year month : Nat) : Nat :=
  if month = 2 then
    if year % 4 = 0 ∧ (year % 100 ≠ 0 ∨ year % 400 = 0) then 29 else 28
  else if month ∈ [4, 6, 9, 11] then 30
  else 31

/-- Reads a date. -/
def readDate (s : List Char) : Option (List Char) := do
  let (year, s) ← readPart 4 0 9999 s
  let s ← expect ['-'] s
  let (month, s) ← readPart 2 1 12 s
  let s ← expect ['-'] s
  let (_, s) ← readPart 2 1 (daysOf year month) s
  some s

/-- Reads a time of day; a minute may have a second 60. -/
def readTime (s : List Char) : Option (List Char) := do
  let (_, s) ← readPart 2 0 23 s
  let s ← expect [':'] s
  let (_, s) ← readPart 2 0 59 s
  let s ← expect [':'] s
  let (_, s) ← readPart 2 0 60 s
  match s with
  | '.' :: fraction =>
    if (fraction.takeWhile Char.isDigit).isEmpty then none
    else some (fraction.dropWhile Char.isDigit)
  | s => some s

/-- Reads the distance from universal time, if there is one. -/
def readOffset (s : List Char) : Option (List Char) :=
  match s with
  | 'Z' :: rest | 'z' :: rest => some rest
  | _ =>
    match readSign s with
    | (none, _) => some s
    | (some _, rest) => do
      let (_, rest) ← readPart 2 0 23 rest
      let rest ← expect [':'] rest
      let (_, rest) ← readPart 2 0 59 rest
      some rest

/-- Reads a date, a date and time, or a time. -/
def readMoment (s : List Char) : Option (List Char) :=
  match readDate s with
  | none => readTime s
  | some rest =>
    match rest with
    | c :: time =>
      if c = 'T' ∨ c = 't' ∨ c = ' ' then
        match readTime time with
        | some rest => readOffset rest
        | none => some rest
      else some rest
    | [] => some rest

/-- Reads a number, a date or a time. -/
def readScalar (s : List Char) : Option (Value × List Char) :=
  -- A date or time starts with digits, so it is tried before a number.
  match readMoment s with
  | some rest => some (.moment, rest)
  | none =>
    match s with
    | '0' :: rest =>
      match readBased rest with
      | some result => some result
      | none => readDecimal s
    | _ =>
      match readNamed s with
      | some result => some result
      | none => readDecimal s

end BackoffLM.Toml

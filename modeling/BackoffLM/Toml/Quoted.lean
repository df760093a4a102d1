import BackoffLM.Toml.Reader

/-!
# Quoted text in TOML

Text stands in quotes, in which a backslash opens an escape, or in apostrophes, in which every
character stands for itself. Either mark tripled encloses text of more than one line: a line end
right after the opening is dropped, a line end counts as one line feed however it is written, and up
to two marks may stand before the closing three.
-/

namespace BackoffLM.Toml

/-- The mark around text with escapes. -/
def quote : Char := '\x22'

/-- The mark around text without escapes. -/
def apostrophe : Char := '\x27'

/-- The character that opens an escape. -/
def backslash : Char := '\x5c'

/-- The value of a hexadecimal digit. -/
def hexDigit? (c : Char) : Option Nat :=
  if c.isDigit then some (c.toNat - 0x30)
  else if 'a' ≤ c ∧ c ≤ 'f' then some (c.toNat - 0x57)
  else if 'A' ≤ c ∧ c ≤ 'F' then some (c.toNat - 0x37)
  else none

/-- The character with a code point. -/
def charOf? (n : Nat) : Option Char := if n.isValidChar then some (Char.ofNat n) else none

/-- Reads `count` hexadecimal digits as a code point. -/
def readCodePoint (count : Nat) (s : List Char) : Option (Char × List Char) := do
  let taken := s.take count
  if taken.length < count then none
  else
    let digits ← taken.mapM hexDigit?
    let c ← charOf? (digits.foldl (fun n d => n * 16 + d) 0)
    some (c, s.drop count)

/-- Reads an escape after its backslash. -/
def readEscape : Reader Char
  | 'b' :: s => some ('\x08', s)
  | 't' :: s => some ('\t', s)
  | 'n' :: s => some ('\n', s)
  | 'f' :: s => some ('\x0c', s)
  | 'r' :: s => some ('\r', s)
  | 'u' :: s => readCodePoint 4 s
  | 'U' :: s => readCodePoint 8 s
  | c :: s => if c = quote ∨ c = backslash then some (c, s) else none
  | [] => none

/-- Reads to the closing quote, with at most `fuel` characters; `done` is newest first. -/
def readBasic : (fuel : Nat) → (done : List Char) → Reader (List Char)
  | 0, _, _ => none
  | _, _, [] => none
  | fuel + 1, done, c :: s =>
    if c = quote then some (done.reverse, s)
    else if c = backslash then (readEscape s).bind fun (e, s) => readBasic fuel (e :: done) s
    else if isPrintable c then readBasic fuel (c :: done) s
    else none

/-- Reads to the closing apostrophe. -/
def readLiteral (s : List Char) : Option (List Char × List Char) :=
  let inside (c : Char) : Bool := isPrintable c && c != apostrophe
  match s.dropWhile inside with
  | [] => none
  | c :: rest => if c = apostrophe then some (s.takeWhile inside, rest) else none

/-- Skips blanks and line ends. -/
def skipLines : List Char → List Char
  | ' ' :: s | '\t' :: s | '\n' :: s => skipLines s
  | '\r' :: '\n' :: s => skipLines s
  | s => s

/-- Skips from after a backslash that ends a line to the next text. -/
def skipContinued (s : List Char) : Option (List Char) :=
  (lineEnd? (skipSpace s)).map skipLines

/-- The marks at the front of a text. -/
def leadingMarks (mark : Char) (s : List Char) : Nat := (s.takeWhile (· == mark)).length

/-- Reads text of several lines to the three closing marks; `done` is newest first. -/
def readLines (mark : Char) (escapes : Bool) :
    (fuel : Nat) → (done : List Char) → Reader (List Char)
  | 0, _, _ => none
  | _, _, [] => none
  | fuel + 1, done, c :: s =>
    if c = mark then
      let marks := leadingMarks mark (c :: s)
      if marks < 3 then readLines mark escapes fuel (c :: done) s
      else
        -- Of more marks than three the last three close the text.
        let kept := min (marks - 3) 2
        some (done.reverse ++ List.replicate kept mark, (c :: s).drop (kept + 3))
    else if escapes && c == backslash then
      match skipContinued s with
      | some rest => readLines mark escapes fuel done rest
      | none => (readEscape s).bind fun (e, s) => readLines mark escapes fuel (e :: done) s
    else if isPrintable c then readLines mark escapes fuel (c :: done) s
    else (lineEnd? (c :: s)).bind fun s => readLines mark escapes fuel ('\n' :: done) s

/-- Drops a line end at the front. -/
def dropLineEnd (s : List Char) : List Char := (lineEnd? s).getD s

/-- Reads text on one line after its opening mark. -/
def readShort (mark : Char) (s : List Char) : Option (List Char × List Char) :=
  if mark = quote then readBasic (s.length + 1) [] s else readLiteral s

/-- Reads quoted text of one line or more. -/
def readQuoted : Reader (List Char)
  | [] => none
  | mark :: s =>
    if mark = quote ∨ mark = apostrophe then
      match expect [mark, mark] s with
      | some long =>
        let body := dropLineEnd long
        readLines mark (mark == quote) (body.length + 1) [] body
      | none => readShort mark s
    else none

end BackoffLM.Toml

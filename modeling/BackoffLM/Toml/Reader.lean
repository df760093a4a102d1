/-!
# Reading TOML piece by piece

A `Reader` takes a piece off the front of a text and leaves the rest, or gives nothing when the text
does not open with such a piece. The pieces here are blanks, line ends, comments and lists of pieces
between separators.
-/

namespace BackoffLM.Toml

/-- Reads a piece off the front of a text. -/
abbrev Reader (α : Type) := List Char → Option (α × List Char)

/-- Takes an expected text off the front. -/
def expect (text rest : List Char) : Option (List Char) := text.isPrefixOf? rest

/-- A blank within a line. -/
def isSpace (c : Char) : Bool := c == ' ' || c == '\t'

/-- Skips blanks within a line. -/
def skipSpace (s : List Char) : List Char := s.dropWhile isSpace

/-- Takes a line end off the front. -/
def lineEnd? : List Char → Option (List Char)
  | '\n' :: s => some s
  | '\r' :: '\n' :: s => some s
  | _ => none

/-- The characters of text: all but the control characters, of which the tab is allowed. -/
def isPrintable (c : Char) : Bool := c == '\t' || (0x20 ≤ c.toNat && c.toNat != 0x7F)

/-- Skips a comment if there is one. -/
def skipComment : List Char → List Char
  | '#' :: s => s.dropWhile isPrintable
  | s => s

/-- Ends a line: blanks, a comment, and the line end or the end of the text. -/
def finishLine (s : List Char) : Option (List Char) :=
  match skipComment (skipSpace s) with
  | [] => some []
  | rest => lineEnd? rest

/-- Skips blanks, comments and line ends over at most `fuel` lines. A comment must end with its
line. -/
def skipGap : (fuel : Nat) → List Char → Option (List Char)
  | 0, _ => none
  | fuel + 1, s =>
    let s := skipSpace s
    match s with
    | '#' :: _ => (lineEnd? (skipComment s)).bind (skipGap fuel)
    | '\n' :: _ | '\r' :: _ => (lineEnd? s).bind (skipGap fuel)
    | _ => some s

/-- Skips blanks, comments and line ends. -/
def gap (s : List Char) : Option (List Char) := skipGap (s.length + 1) s

/-- Reads items with separators between them, at most `fuel` of them. A separator that no item
follows is left. -/
def separatedUpTo {α : Type} (separator : Char) (item : Reader α) :
    (fuel : Nat) → List Char → List α × List Char
  | 0, s => ([], s)
  | fuel + 1, s =>
    match item s with
    | none => ([], s)
    | some (a, rest) =>
      match rest with
      | [] => ([a], rest)
      | c :: after =>
        if c = separator then
          match separatedUpTo separator item fuel after with
          | ([], _) => ([a], rest)
          | (items, rest) => (a :: items, rest)
        else ([a], rest)

/-- Reads items with separators between them. -/
def separated {α : Type} (separator : Char) (item : Reader α) (s : List Char) :
    List α × List Char :=
  separatedUpTo separator item (s.length + 1) s

end BackoffLM.Toml

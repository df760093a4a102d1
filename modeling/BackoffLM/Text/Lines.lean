import BackoffLM.Text.Blank
import BackoffLM.Text.Utf8

/-!
# Lines of a file

`rawLines` cuts bytes at line feeds; a last line needs no line feed. `numbered` gives the lines
that hold anything, trimmed and with their numbers counted from 1. A line that is not UTF-8 is kept
as such: it is a fault only for a reader that gets so far.
-/

namespace BackoffLM.Text

/-- The lines of a file, without their line feeds. -/
def rawLines (bytes : List UInt8) : List (List UInt8) :=
  bytes.foldr (fun b lines =>
    if b == 0x0A then [] :: lines
    else
      match lines with
      | [] => [[b]]
      | line :: more => (b :: line) :: more) []

/-- A numbered line: its trimmed text, or none when its bytes are not UTF-8. -/
structure Line where
  /-- The line's number, counted from 1. -/
  number : Nat
  /-- The text without blanks at either end. -/
  text : Option (List Char)
  deriving DecidableEq, Repr

/-- Reads the bytes of a line; none for a blank line. -/
def Line.ofBytes (number : Nat) (bytes : List UInt8) : Option Line :=
  match Utf8.decode bytes with
  | .error _ => some ⟨number, none⟩
  | .ok cs =>
    match trim cs with
    | [] => none
    | text => some ⟨number, some text⟩

/-- The lines that are not blank. -/
def numbered (raw : List (List UInt8)) : List Line :=
  raw.zipIdx.filterMap fun (bytes, i) => Line.ofBytes (i + 1) bytes

end BackoffLM.Text

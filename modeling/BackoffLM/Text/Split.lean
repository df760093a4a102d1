/-!
# Splitting a text at a delimiter

`split` cuts a text at every occurrence of a delimiter, found from the left and not overlapping. An
empty delimiter occurs before every character and at the end. `parts` leaves out the empty pieces.
-/

namespace BackoffLM.Text

/-- Splits at a delimiter that is not empty; `skip` characters of the last occurrence are still to
be passed, and `piece` is the piece so far, newest first. -/
def splitFrom (delimiter : List Char) (skip : Nat) (piece : List Char) :
    List Char → List (List Char)
  | [] => [piece.reverse]
  | c :: cs =>
    match skip with
    | skip + 1 => splitFrom delimiter skip piece cs
    | 0 =>
      if delimiter.isPrefixOf (c :: cs) then
        piece.reverse :: splitFrom delimiter (delimiter.length - 1) [] cs
      else splitFrom delimiter 0 (c :: piece) cs

/-- The pieces of a text between the occurrences of a delimiter. -/
def split (delimiter text : List Char) : List (List Char) :=
  if delimiter.isEmpty then [] :: text.map ([·]) ++ [[]] else splitFrom delimiter 0 [] text

/-- The pieces that are not empty. -/
def parts (delimiter text : List Char) : List (List Char) :=
  (split delimiter text).filter fun piece => !piece.isEmpty

end BackoffLM.Text

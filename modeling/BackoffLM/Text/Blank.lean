/-!
# Blank characters, trimming and fields

A character is blank when it has the Unicode property `White_Space`. Text formats of this library
are read a line at a time: a line is trimmed at both ends (`trim`) and cut into `fields`, the
maximal runs of characters that are not blank.
-/

namespace BackoffLM.Text

/-- The Unicode property `White_Space`. -/
def isBlank (c : Char) : Bool :=
  let n := c.toNat
  (0x09 ≤ n && n ≤ 0x0D) || n == 0x20 || n == 0x85 || n == 0xA0 || n == 0x1680 ||
    (0x2000 ≤ n && n ≤ 0x200A) || n == 0x2028 || n == 0x2029 || n == 0x202F || n == 0x205F ||
    n == 0x3000

/-- The characters without the blank ones at either end. -/
def trim (cs : List Char) : List Char :=
  ((cs.dropWhile isBlank).reverse.dropWhile isBlank).reverse

/-- Whether a text is empty or opens with a blank character. -/
def opensBlank : List Char → Bool
  | [] => true
  | c :: _ => isBlank c

/-- The maximal runs of characters that are not blank, in order. -/
def fields : List Char → List (List Char)
  | [] => []
  | c :: cs =>
    let later := fields cs
    if isBlank c then later
    else if opensBlank cs then [c] :: later
    else
      match later with
      | [] => [[c]]
      | word :: words => (c :: word) :: words

end BackoffLM.Text

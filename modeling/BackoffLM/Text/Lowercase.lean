import BackoffLM.Text.CaseTable

/-!
# Lower case

`lowercase` maps every character of a text to its lower case by Unicode's default mapping. The
capital `İ` becomes two characters, `i` and a dot above. The capital sigma becomes the final form
`ς` at the end of a word: when a cased character stands before it and none after it, characters that
case ignores not counted.
-/

namespace BackoffLM.Text

/-- The lower case of a character, wherever it stands. -/
def lowerChar (c : Char) : List Char :=
  if c = '\u0130' then ['i', '\u0307']
  else
    match lowerRuns.find? fun run => run.covers c.toNat with
    | some run => [Char.ofNat (Int.ofNat c.toNat + run.shift).toNat]
    | none => [c]

/-- Whether the first character that case does not ignore is cased. -/
def casedNext (cs : List Char) : Bool :=
  match cs.dropWhile fun c => inRanges ignorableRanges c.toNat with
  | [] => false
  | c :: _ => inRanges casedRanges c.toNat

/-- The lower case of a text after the characters `before`, newest first. -/
def lowercaseAfter (before : List Char) : List Char → List Char
  | [] => []
  | c :: cs =>
    let lower : List Char :=
      if c = 'Σ' then [if casedNext before && !casedNext cs then 'ς' else 'σ'] else lowerChar c
    lower ++ lowercaseAfter (c :: before) cs

/-- The lower case of a text. -/
def lowercase (cs : List Char) : List Char := lowercaseAfter [] cs

end BackoffLM.Text

import BackoffLM.CountModel
import BackoffLM.LoadError
import BackoffLM.Text.Lines

/-!
# Reading counts

A line of a count file is a comment that opens with `#`, the word `mixweight` and a number between 0
and 1, or an n-gram in reading order and its count. Counts of one n-gram add up, the last weight
holds, and n-grams longer than the order are left out. There must be a single word that was counted.
-/

namespace BackoffLM.CountModel

open Text (Line)

/-- What a line of a count file says. -/
inductive Entry where
  | comment
  | mixWeight (weight : Float)
  | ngram (words : List String) (count : UInt64)

/-- Reads the weight of longer contexts. -/
def readMixWeight : List (List Char) → Except CountFault Float
  | [] => .error .noMixWeight
  | field :: _ =>
    match Numeral.Decimal.read field with
    | none => .error .badMixWeight
    | some numeral =>
      let weight := numeral.toDouble
      if 0.0 < weight && weight < 1.0 then .ok weight else .error .mixWeightRange

/-- Reads a line. -/
def Entry.read (text : List Char) : Except CountFault Entry :=
  if text.head? = some '#' then .ok .comment
  else
    match Text.fields text with
    | [] => .ok .comment
    | first :: others =>
      if first = "mixweight".toList then .mixWeight <$> readMixWeight others
      else
        match others.getLast? with
        | none => .error .noWords
        | some count =>
          let words := (first :: others.dropLast).map String.ofList
          match Numeral.readNat Numeral.maxWord64 count with
          | .error reason => .error (.badCount reason)
          | .ok count => .ok (.ngram words (.ofNat count))

/-- Takes in a line. -/
def addEntry (m : CountModel) : Entry → CountModel
  | .comment => m
  | .mixWeight mixWeight => { m with mixWeight }
  | .ngram words count => m.add words count

/-- Reads the lines of a file. -/
def readEntries : List Line → Except LoadError (List Entry)
  | [] => .ok []
  | line :: lines =>
    match line.text with
    | none => .error (.file .notText)
    | some text => do
      let entry ← (Entry.read text).mapError (.counts line.number)
      (entry :: ·) <$> readEntries lines

/-- Reads a count file, keeping n-grams up to an order. -/
def ofBytes (bytes : List UInt8) (order : Nat) : Except LoadError CountModel := do
  let raw := Text.rawLines bytes
  let entries ← readEntries (Text.numbered raw)
  let m := entries.foldl addEntry (empty order)
  if m.total = 0 then .error (.counts raw.length .noUnigrams) else .ok m

end BackoffLM.CountModel

import BackoffLM.Arpa
import BackoffLM.LoadError
import BackoffLM.Text.Lines
import Std.Data.HashSet

/-!
# Reading ARPA text

An ARPA file is any preamble, the marker `\data\`, one line `ngram n=count` for each order, a
section of n-grams for each order under its header, and the marker `\end\`. What follows the end is
not looked at. A line of a section holds a log probability, the words, and below the highest order
an optional backoff weight. Sections above `keep` orders are counted and not read.

Each stage takes the lines from where the last one stopped and returns its result with the lines
after it, so that every fault is met at the first line that shows it.
-/

namespace BackoffLM.Arpa

open Text (Line)

/-- The text of a line, which must be UTF-8. -/
def lineText (line : Line) : Except LoadError (List Char) :=
  match line.text with
  | some text => .ok text
  | none => .error (.file .notText)

/-- The marker before the counts. -/
def dataMarker : List Char := "\\data\\".toList

/-- The marker after the last section. -/
def endMarker : List Char := "\\end\\".toList

/-- The header of a section. -/
def header (order : Nat) : List Char := '\\' :: Nat.toDigits 10 order ++ "-grams:".toList

/-! ## The preamble and the counts -/

/-- Skips to after the data marker. `last` is the number of lines of the file. -/
def skipPreamble (last : Nat) : List Line → Except LoadError (List Line)
  | [] => .error (.arpa last .missingData)
  | line :: rest => do
    let text ← lineText line
    if text = dataMarker then .ok rest else skipPreamble last rest

/-- Reads `n=count` after `ngram `. -/
def readCount (text body : List Char) : Except ArpaFault (Nat × Nat) := do
  let order := body.takeWhile (· ≠ '=')
  match body.dropWhile (· ≠ '=') with
  | [] => .error (.badCountLine (String.ofList text))
  | _ :: count =>
    let order ← (Numeral.readNat Numeral.maxWord64 (Text.trim order)).mapError .badOrder
    let count ← (Numeral.readNat Numeral.maxWord64 (Text.trim count)).mapError .badCount
    .ok (order, count)

/-- Reads the counts up to the header of the unigrams. -/
def readCounts (last : Nat) (declared : List Nat) :
    List Line → Except LoadError (List Nat × List Line)
  | [] => .error (.arpa last .missingEnd)
  | line :: rest => do
    let text ← lineText line
    match "ngram ".toList.isPrefixOf? text with
    | some body =>
      let (order, count) ← (readCount text body).mapError (.arpa line.number)
      if order = declared.length + 1 then readCounts last (declared ++ [count]) rest
      else .error (.arpa line.number (.orderOutOfTurn (declared.length + 1) order))
    | none =>
      if text = header 1 then
        if declared.isEmpty then .error (.arpa line.number .noCounts) else .ok (declared, rest)
      else .error (.arpa line.number (.unexpectedLine (String.ofList text)))

/-! ## Sections -/

/-- What a section leaves: its result, how many lines it had, the line that ended it, and the lines
after that. -/
structure Section (σ : Type) where
  result : σ
  seen : Nat
  header : Nat × List Char
  rest : List Line

/-- Adds each line of a section to the result, up to a line that opens with a backslash. -/
def readSection {σ : Type} (add : σ → List Char → Except ArpaFault σ) (last : Nat) :
    (result : σ) → (seen : Nat) → List Line → Except LoadError (Section σ)
  | _, _, [] => .error (.arpa last .missingEnd)
  | result, seen, line :: rest => do
    let text ← lineText line
    if text.head? = some '\\' then .ok ⟨result, seen, (line.number, text), rest⟩
    else
      let result ← (add result text).mapError (.arpa line.number)
      readSection add last result (seen + 1) rest

/-- A section must have as many lines as were declared. -/
def Section.checkCount {σ : Type} (s : Section σ) (order declared : Nat) :
    Except LoadError Unit :=
  if s.seen = declared then .ok ()
  else .error (.arpa s.header.1 (.countMismatch order declared s.seen))

/-- The words and weights of a line of order `order`; `withBackoff` says whether a backoff weight
is read if there is one. -/
def readNgram (order : Nat) (withBackoff : Bool) (text : List Char) :
    Except ArpaFault (List String × Weights) :=
  match Text.fields text with
  | [] => .error (.fieldCount order 0)
  | probability :: others =>
    let words := (others.take order).map String.ofList
    let extra := others.drop order
    if others.length < order ∨ 1 < extra.length then
      .error (.fieldCount order (others.length + 1))
    else
      match LogProb.read? probability with
      | none => .error .badProbability
      | some prob =>
        match extra, withBackoff with
        | field :: _, true =>
          match LogProb.read? field with
          | none => .error .badBackoff
          | some backoff => .ok (words, ⟨prob, backoff⟩)
        -- At the highest order a field after the words is passed over.
        | _, _ => .ok (words, ⟨prob, .zero⟩)

/-- The words read so far, with their weights. -/
structure Lexicon where
  vocabulary : Vocabulary
  unigrams : Array Weights
  hasUnknown : Bool

/-- Before any line: `<unk>` alone, with the weights of a model that does not define it. -/
def Lexicon.initial : Lexicon := ⟨Vocabulary.empty.push unknownToken, #[.undefined], false⟩

/-- Adds a line of the unigram section. A line for `<unk>` sets its weights. -/
def Lexicon.add (withBackoff : Bool) (lexicon : Lexicon) (text : List Char) :
    Except ArpaFault Lexicon := do
  let (words, weights) ← readNgram 1 withBackoff text
  let word := words.headD ""
  if word = unknownToken then
    .ok { lexicon with unigrams := lexicon.unigrams.setIfInBounds 0 weights, hasUnknown := true }
  else if lexicon.vocabulary.contains word then .error (.duplicateUnigram word)
  else
    .ok { lexicon with
      vocabulary := lexicon.vocabulary.push word, unigrams := lexicon.unigrams.push weights }

/-- The n-grams of a section read so far, and their words. -/
structure Ngrams where
  entries : Array Entry
  seen : Std.HashSet (List WordId)

/-- The numbers of words, all of which must be in the vocabulary. -/
def lookUp (v : Vocabulary) : List String → Except ArpaFault (List WordId)
  | [] => .ok []
  | word :: words =>
    match v.ids[word]? with
    | none => .error (.unknownWord word)
    | some id => (id :: ·) <$> lookUp v words

/-- Adds a line of the section of an order above 1. -/
def Ngrams.add (v : Vocabulary) (order : Nat) (withBackoff : Bool) (ngrams : Ngrams)
    (text : List Char) : Except ArpaFault Ngrams := do
  let (words, weights) ← readNgram order withBackoff text
  let ids ← lookUp v words
  if ngrams.seen.contains ids then
    .error (.duplicateNgram order (String.intercalate " " words))
  else .ok ⟨ngrams.entries.push ⟨ids, weights⟩, ngrams.seen.insert ids⟩

/-- Reads the sections from `order` on, whose declared counts are given, where `opening` is the
line after the section before. Returns the n-grams of the orders up to `keep`. -/
def readHigher (v : Vocabulary) (keep last : Nat) :
    (order : Nat) → (declared : List Nat) → (opening : Nat × List Char) → List Line →
      Except LoadError (List (Array Entry))
  | _, [], (number, text), _ =>
    if text = endMarker then .ok []
    else .error (.arpa number (.unexpectedHeader (String.ofList text)))
  | order, count :: declared, (number, text), lines => do
    if text = endMarker then
      .error (.arpa number (.endTooEarly (order - 1) (order + declared.length)))
    else if text ≠ header order then
      .error (.arpa number (.unexpectedHeader (String.ofList text)))
    else if order ≤ keep then
      let s ← readSection (Ngrams.add v order (order < keep)) last ⟨#[], ∅⟩ 0 lines
      s.checkCount order count
      let higher ← readHigher v keep last (order + 1) declared s.header s.rest
      .ok (s.result.entries :: higher)
    else
      -- The lines of an order that is dropped are counted, whatever they hold.
      let s ← readSection (fun (_ : Unit) _ => .ok ()) last () 0 lines
      s.checkCount order count
      readHigher v keep last (order + 1) declared s.header s.rest

/-! ## The whole file -/

/-- The orders to keep of those declared. -/
def keptOrder (declared : Nat) (atMost : Option Nat) : Nat :=
  match atMost with
  | none => declared
  | some m => min declared (max m 1)

/-- Reads an ARPA file, dropping the orders above `atMost`. -/
def ofBytes (bytes : List UInt8) (atMost : Option Nat) : Except LoadError Arpa := do
  let raw := Text.rawLines bytes
  let last := raw.length
  let lines ← skipPreamble last (Text.numbered raw)
  let (declared, lines) ← readCounts last [] lines
  -- Orders that are dropped may be above the greatest that is supported.
  let keep := keptOrder declared.length atMost
  if maxOrder < keep then .error (.unsupportedOrder keep)
  else
    let s ← readSection (Lexicon.add (1 < keep)) last Lexicon.initial 0 lines
    s.checkCount 1 (declared.headD 0)
    let lexicon := s.result
    let ngrams ← readHigher lexicon.vocabulary keep last 2 declared.tail s.header s.rest
    .ok ⟨lexicon.vocabulary, lexicon.hasUnknown, lexicon.unigrams, ngrams⟩

end BackoffLM.Arpa

import BackoffLM.Arpa.Reader
import BackoffLM.Proofs.Text.Lines

/-!
# What an ARPA file lists, and how it is written

A `Listing` is what an ARPA file is about: the words of a model with their weights, and its n-grams
of each higher order. It holds the numerals of the file as they stand there, with the weights that
they are read as. `Listing.contents` is what a listing means, without any reading of lines.

The same listing may be written in many ways. `Listing.forms` gives the forms of its lines from the
data marker to the end marker: how many n-grams there are of each order (`CountLine`), and a section
for each order with a line for each n-gram, whose fields may be spaced at will. A `Layout` writes
the listing (`Layout.Writes`) when it has lines of these forms, in order, with blank lines anywhere
among them, any lines that are no data marker before them, and anything at all after them.
-/

namespace BackoffLM.Arpa

open Text (Blank IsToken Spaced InOrder)

/-! ## Listings -/

/-- A numeral and the weight that it is read as. -/
structure WeightToken where
  text : List Char
  value : LogProb
  isToken : IsToken text
  read_eq : LogProb.read? text = some value

/-- What a line of a section lists. -/
structure NgramLine where
  prob : WeightToken
  words : List String
  /-- The backoff weight, if the line gives one. -/
  backoff : Option WeightToken
  isToken : ∀ w ∈ words, IsToken w.toList

namespace NgramLine

/-- The word of a line of the unigrams. -/
def word (e : NgramLine) : String := e.words.headD ""

/-- The weights, of which the backoff counts only below the highest order and is zero where the line
gives none. -/
def weights (hasBackoff : Bool) (e : NgramLine) : Weights :=
  Weights.keepBackoff hasBackoff ⟨e.prob.value, (e.backoff.map WeightToken.value).getD .zero⟩

/-- The fields of the line. -/
def tokens (e : NgramLine) : List (List Char) :=
  e.prob.text :: (e.words.map String.toList ++ (e.backoff.map WeightToken.text).toList)

end NgramLine

/-- What an ARPA file lists: n-grams of the orders 1, 2 and so on, none of them twice, all over the
words of the unigrams and the unknown word, which may be among them. -/
structure Listing where
  unigrams : List NgramLine
  /-- The n-grams of order 2, 3 and so on. -/
  higher : List (List NgramLine)
  order_le : higher.length + 1 ≤ maxOrder
  length_words : ∀ (k : Nat) (s : List NgramLine), (unigrams :: higher)[k]? = some s →
    ∀ e ∈ s, e.words.length = k + 1
  distinct : ∀ s ∈ unigrams :: higher, (s.map NgramLine.words).Nodup
  known : ∀ s ∈ higher, ∀ e ∈ s, ∀ w ∈ e.words,
    w = unknownToken ∨ w ∈ unigrams.map NgramLine.word

/-! ## What a listing means -/

/-- The words of unigrams by number: the unknown word, and the others in the order of their
lines. -/
def wordList (s : List NgramLine) : List String :=
  unknownToken :: (s.map NgramLine.word).filter (· ≠ unknownToken)

/-- The weights of the unknown word: those of its line, if it has one. -/
def unknownWeights (hasBackoff : Bool) (s : List NgramLine) : Weights :=
  match s.find? (·.word = unknownToken) with
  | some e => e.weights hasBackoff
  | none => .undefined

/-- The weights of the words of unigrams by number. -/
def weightList (hasBackoff : Bool) (s : List NgramLine) : List Weights :=
  unknownWeights hasBackoff s ::
    (s.filter (·.word ≠ unknownToken)).map (NgramLine.weights hasBackoff)

/-- The words of unigrams, with their weights. -/
def lexiconOf (hasBackoff : Bool) (s : List NgramLine) : Lexicon where
  vocabulary := .ofList (wordList s)
  unigrams := (weightList hasBackoff s).toArray
  hasUnknown := s.any (·.word = unknownToken)

/-- The n-gram of a line over numbered words. -/
def entryOf (words : List String) (hasBackoff : Bool) (e : NgramLine) : Entry :=
  ⟨e.words.map words.idxOf, e.weights hasBackoff⟩

namespace Listing

variable (d : Listing)

/-- The length of the longest n-grams. -/
def order : Nat := d.higher.length + 1

/-- The n-grams of the sections of orders from `n` on, in the order of their lines. -/
def entriesFrom : (n : Nat) → (sections : List (List NgramLine)) → List (Array Entry)
  | _, [] => []
  | n, s :: sections =>
    (s.map (entryOf (wordList d.unigrams) (n < d.order))).toArray :: entriesFrom (n + 1) sections

/-- What the listing means: its words and n-grams with their weights, and no backoff at the highest
order. -/
def contents : Arpa where
  vocabulary := .ofList (wordList d.unigrams)
  hasUnknown := d.unigrams.any (·.word = unknownToken)
  unigrams := (weightList (1 < d.order) d.unigrams).toArray
  ngrams := d.entriesFrom 2 d.higher

end Listing

/-! ## How a listing is written -/

/-- A line that declares how many n-grams of an order there are. -/
inductive CountLine (order count : Nat) : List Char → Prop
  | mk {before orderField orderText countField countText : List Char} :
    Blank before → Spaced [orderText] orderField → Spaced [countText] countField →
      Numeral.readNat Numeral.maxWord64 orderText = .ok order →
      Numeral.readNat Numeral.maxWord64 countText = .ok count →
      CountLine order count (before ++ ("ngram ".toList ++ (orderField ++ '=' :: countField)))

/-- The lines that declare the counts of the orders from `order` on. -/
def countForms : (order : Nat) → (counts : List Nat) → List (List Char → Prop)
  | _, [] => []
  | order, count :: counts => CountLine order count :: countForms (order + 1) counts

/-- The lines of the sections of the orders from `order` on, and the end marker. -/
def sectionForms : (order : Nat) → (sections : List (List NgramLine)) → List (List Char → Prop)
  | _, [] => [Spaced [endMarker]]
  | order, s :: sections =>
    Spaced [header order] ::
      (s.map (fun e => Spaced e.tokens) ++ sectionForms (order + 1) sections)

/-- The lines from the data marker to the end marker. -/
def Listing.forms (d : Listing) : List (List Char → Prop) :=
  Spaced [dataMarker] ::
    (countForms 1 ((d.unigrams :: d.higher).map List.length) ++
      sectionForms 1 (d.unigrams :: d.higher))

/-- The parts of a file: lines before the data marker, the lines from there to the one before the
end marker, the line of the end marker, and whatever comes after that line. -/
structure Layout where
  preamble : List (List Char)
  body : List (List Char)
  closing : List Char
  after : List UInt8

namespace Layout

/-- The bytes of the file. -/
def bytes (t : Layout) : List UInt8 :=
  (t.preamble ++ t.body).flatMap (fun l => Text.Utf8.encode l ++ [0x0A]) ++
    (Text.Utf8.encode t.closing ++ t.after)

/-- The file writes the listing. -/
structure Writes (t : Layout) (d : Listing) : Prop where
  preamble : ∀ l ∈ t.preamble, ¬ Spaced [dataMarker] l
  lines : InOrder d.forms (t.body ++ [t.closing])
  closing : ¬ Blank t.closing
  oneLine : ∀ l ∈ t.preamble ++ t.body ++ [t.closing], '\n' ∉ l
  /-- What follows is on lines of its own. -/
  after : t.after = [] ∨ t.after.head? = some 0x0A

end Layout

end BackoffLM.Arpa

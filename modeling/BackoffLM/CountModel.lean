import BackoffLM.LogProb
import BackoffLM.Ngram
import Std.Data.HashMap

/-!
# Models of raw counts

A count model estimates the probability of a word from how often n-grams were counted. It numbers
words in the order in which they first appear, and keeps n-grams by the numbers of their words. The
estimate without context adds one to the count of every word, and keeps one for words never seen.
Each longer context mixes the share of the word among the n-grams that continue the context with the
estimate of the shorter one. Counts are 64-bit words, which start again from zero where they
overflow. `estimate` computes in any kind of number: `logProb` takes it in double precision, and
exact fractions show what the arithmetic means.
-/

namespace BackoffLM

/-- The counts of n-grams up to an order. -/
structure CountModel where
  /-- The length of the longest n-grams kept. -/
  order : Nat
  /-- The weight of a longer context against the shorter one. -/
  mixWeight : Float
  /-- The number of each word of the n-grams kept. -/
  ids : Std.HashMap String WordId
  /-- The count of each n-gram, by its words in reading order. -/
  counts : Std.HashMap (List WordId) UInt64
  /-- For each context, the counts of the n-grams that continue it, added up. -/
  contexts : Std.HashMap (List WordId) UInt64
  /-- The counts of single words, added up. -/
  total : UInt64

namespace CountModel

/-- The weight of longer contexts when a file says none. -/
def defaultMixWeight : Float := 0.5

/-- No counts. -/
def empty (order : Nat) : CountModel := ⟨max order 1, defaultMixWeight, ∅, ∅, ∅, 0⟩

/-- The number of a word, which is the next one if the word is new. -/
def intern (ids : Std.HashMap String WordId) (word : String) :
    WordId × Std.HashMap String WordId :=
  match ids[word]? with
  | some id => (id, ids)
  | none => (ids.size, ids.insert word ids.size)

/-- The numbers of words, one after another. -/
def internAll (ids : Std.HashMap String WordId) :
    List String → List WordId × Std.HashMap String WordId
  | [] => ([], ids)
  | word :: words =>
    let (id, ids) := intern ids word
    let (rest, ids) := internAll ids words
    (id :: rest, ids)

/-- Adds to the count under a key. -/
def addTo (m : Std.HashMap (List WordId) UInt64) (key : List WordId) (n : UInt64) :
    Std.HashMap (List WordId) UInt64 :=
  m.insert key (m.getD key 0 + n)

/-- Counts an n-gram `n` times more, if it is not too long. -/
def add (m : CountModel) (ngram : List String) (n : UInt64) : CountModel :=
  if m.order < ngram.length then m
  else
    let (key, ids) := internAll m.ids ngram
    let alone := key.length = 1
    { m with
      ids
      counts := addTo m.counts key n
      contexts := if alone then m.contexts else addTo m.contexts key.dropLast n
      total := if alone then m.total + n else m.total }

/-- The count of an n-gram. -/
def count (m : CountModel) (ngram : List WordId) : UInt64 := m.counts.getD ngram 0

variable {α : Type} [Add α] [Sub α] [Mul α] [Div α]

/-- The probability, without context, of a word that was counted `n` times: of one never seen, if
there is no count. -/
def estimateAlone (m : CountModel) (ofCount : Nat → α) (n : Option UInt64) : α :=
  let one := ofCount 1
  let all := ofCount m.total.toNat + ofCount m.ids.size + one
  match n with
  | some n => (ofCount n.toNat + one) / all
  | none => one / all

/-- Mixes an estimate after the context `history`, in reading order, with those after contexts that
are longer by the words of `older`, newest first, as far as these contexts were seen. -/
def mixOlder (m : CountModel) (ofCount : Nat → α) (weight : α) (word : WordId) :
    (history : List WordId) → (shorter : α) → (older : List String) → α
  | _, shorter, [] => shorter
  | history, shorter, newest :: older =>
    match m.ids[newest]? with
    | none => shorter
    | some newest =>
      let history := newest :: history
      match m.contexts[history]? with
      | none => shorter
      | some total =>
        let seen := ofCount (m.count (history ++ [word])).toNat
        let mixed := weight * seen / ofCount total.toNat + (ofCount 1 - weight) * shorter
        mixOlder m ofCount weight word history mixed older

/-- The probability of a word after a context given newest word first. -/
def estimate (m : CountModel) (ofCount : Nat → α) (weight : α) (word : String)
    (context : List String) : α :=
  match m.ids[word]? with
  | none => m.estimateAlone ofCount none
  | some word =>
    let alone := m.estimateAlone ofCount (some (m.count [word]))
    m.mixOlder ofCount weight word [] alone (context.take (m.order - 1))

/-- A count in double precision, rounded to nearest. -/
def toDouble (n : Nat) : Float := (UInt64.ofNat n).toFloat

/-- The log probability of a word after a context given newest word first. -/
def logProb (m : CountModel) (word : String) (context : List String) : LogProb :=
  .ofDouble (Float.log10 (m.estimate toDouble m.mixWeight word context))

end CountModel

end BackoffLM

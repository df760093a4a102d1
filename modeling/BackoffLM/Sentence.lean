import BackoffLM.LogScale
import BackoffLM.Scorer
import BackoffLM.SentenceOptions

/-!
# Scoring sentences

A `SentenceScorer` numbers tokens itself, from 1 on in the order in which it first sees them, and
registers each with its model. A sentence is prepared (`SentenceOptions`), numbered and scored; when
it opens with `<s>`, that word is context and is not scored. Numbering tokens changes the scorer
even when it then fails, so operations run in `SentenceScorer.Action`.
-/

namespace BackoffLM

/-- A scorer with numbers for tokens. -/
structure SentenceScorer where
  scorer : Scorer
  options : SentenceOptions
  /-- The numbers of the tokens seen. -/
  ids : Std.HashMap String ExternalId
  /-- The next number. -/
  nextId : Nat

namespace SentenceScorer

/-- An operation that may number tokens, and may fail. -/
abbrev Action (α : Type) := BackoffLM.Action SentenceScorer α

/-- A scorer that has seen no token. -/
def ofScorer (scorer : Scorer) (options : SentenceOptions) : SentenceScorer :=
  ⟨scorer, options, ∅, 1⟩

/-- The greatest number there is. -/
def maxId : Nat := 0x7FFFFFFF

/-- The number of a token, which is registered when it is first seen. The greatest number is
registered but given to no token, as no number would follow it. -/
def idOf (token : String) : Action ExternalId := do
  let s ← get
  match s.ids[token]? with
  | some id => return id
  | none =>
    let id : ExternalId := Int.ofNat s.nextId
    let _ ← Action.within scorer (fun scorer s => { s with scorer }) (Scorer.register token id)
    if s.nextId = maxId then throw .idsExhausted
    else
      modify fun s => { s with ids := s.ids.insert token id, nextId := s.nextId + 1 }
      return id

/-- The numbers of words. -/
def idsOf (words : List String) : Action (List ExternalId) := words.mapM idOf

/-- How many words at the front are context only. -/
def leading (words : List String) : Nat := if words.head? = some beginToken then 1 else 0

/-- The words that are scored. -/
def scoredWords (words : List String) : List String := words.drop (leading words)

/-- The log probability of the last token after the others. -/
def logProb (tokens : List String) : Action LogProb := do
  let ids ← idsOf ((← get).options.normalize tokens)
  return (← get).scorer.prob ids

/-- The sum of the log probabilities of a sentence's words. -/
def sentenceLogProb (tokens : List String) : Action LogProb := do
  let words := (← get).options.sentenceWords tokens
  let ids ← idsOf words
  return (← get).scorer.probString ids (leading words)

/-- The last `count` elements of the first `n`. -/
def window {α : Type} (xs : List α) (count n : Nat) : List α := (xs.take n).drop (n - count)

/-- Each scored word of a sentence with its log probability after the words before it, as many as
the model's order lets count. -/
def wordLogProbs (tokens : List String) : Action (List (String × LogProb)) := do
  let words := (← get).options.sentenceWords tokens
  let ids ← idsOf words
  let scorer := (← get).scorer
  let order := max scorer.model.order 1
  let start := leading words
  return (words.drop start).zipIdx.map fun (word, i) =>
    (word, scorer.prob (window ids order (start + i + 1)))

/-- The perplexity of a sentence over its scored words; 1 when there are none. -/
def perplexity (tokens : List String) : Action Float := do
  let words := (← get).options.sentenceWords tokens
  let scored := (scoredWords words).length
  if scored = 0 then return 1.0
  else
    let total ← sentenceLogProb tokens
    return LogScale.perplexity (total.toDouble / Float.ofNat scored)

end SentenceScorer

end BackoffLM

import BackoffLM.Index
import BackoffLM.LanguageModel

/-!
# Scoring with backoff

A model is a vocabulary and a search structure. To score a word, the n-gram of the word alone is
extended by the context words, newest first, as long as the structure has the result; the
probability of the longest n-gram found counts, and for every context word left over the backoff
weight that the state holds for it is added. The n-grams found also give the next state, so that a
run of scores looks each n-gram up once.
-/

namespace BackoffLM

/-- A vocabulary and a search structure over it. -/
structure Model (S : Type) where
  vocabulary : Vocabulary
  index : S

namespace NgramIndex

variable {S : Type} [NgramIndex S]

/-- Extends the n-gram at a node of a level by older words, as far as the results are found: each
older word with the weights of the n-gram that it leads to. -/
def extensions (index : S) : (level : Nat) → Node → List WordId → List (WordId × Weights)
  | _, _, [] => []
  | level, node, word :: older =>
    match extend index level node word with
    | none => []
    | some (next, weights) => (word, weights) :: extensions index (level + 1) next older

/-- The longest context that a score can use. -/
def contextLimit (index : S) : Nat := order index - 1

/-- A word found, as a word of a context. -/
def contextWord (found : WordId × Weights) : ContextWord := ⟨found.1, found.2.backoff⟩

/-- The state after a context given newest word first, cut to what the structure has. -/
def contextState (index : S) (context : List WordId) : State :=
  match context.take (contextLimit index) with
  | [] => .empty
  | newest :: older =>
    let (node, weights) := unigram index newest
    ⟨⟨newest, weights.backoff⟩ :: (extensions index 1 node older).map contextWord⟩

/-- Scores a word in a state, with the state after it. -/
def score (index : S) (state : State) (word : WordId) : Score × State :=
  let (node, alone) := unigram index word
  let found := extensions index 1 node state.words
  let prob := (found.getLast?.map fun f => f.2.prob).getD alone.prob
  let missed := state.backoffs.drop found.length
  let next := (⟨word, alone.backoff⟩ :: found.map contextWord).take (contextLimit index)
  (⟨prob + .sum missed, found.length + 1⟩, ⟨next⟩)

/-- Scores a word after a context given newest word first, with the state after it. -/
def scoreAfter (index : S) (context : List WordId) (word : WordId) : Score × State :=
  score index (contextState index context) word

end NgramIndex

namespace Model

variable {S : Type}

/-- The operations of a model. -/
def toLanguageModel [StoredIndex S] (m : Model S) : LanguageModel where
  kind := StoredIndex.kind S
  order := NgramIndex.order m.index
  vocabulary := m.vocabulary
  nullState := .empty
  beginState := NgramIndex.contextState m.index [m.vocabulary.beginId]
  score := NgramIndex.score m.index
  scoreAfter := NgramIndex.scoreAfter m.index

/-- The model of an ARPA file; `bits` is the width of quantized weights. -/
def ofArpa [StoredIndex S] (bits : Nat) (a : Arpa) : Model S :=
  ⟨a.vocabulary, StoredIndex.build bits a⟩

end Model

end BackoffLM

import BackoffLM.Arpa
import BackoffLM.Codec
import BackoffLM.Kind

/-!
# Search structures

A search structure answers two questions, from which every score is computed. `unigram` gives the
weights of a word, and `extend` goes from an n-gram to the one with an older word in front. N-grams
are found from their last word backwards: a `Node` is a position that only its structure can read,
and the level of a node is the length of its n-gram. A structure that files can hold (`StoredIndex`)
is built from the n-grams of a model and has an encoding.
-/

namespace BackoffLM

/-- The position of an n-gram in a search structure. -/
abbrev Node := Nat

/-- Finds n-grams from their last word backwards. -/
class NgramIndex (S : Type) where
  /-- The length of the longest n-grams. -/
  order : S → Nat
  /-- The node and weights of a word. A word outside the vocabulary is the unknown word. -/
  unigram : S → WordId → Node × Weights
  /-- From the node of an n-gram of length `level` to that of the n-gram with an older word before
  it. -/
  extend : S → (level : Nat) → Node → WordId → Option (Node × Weights)

/-- A search structure that files hold. -/
class StoredIndex (S : Type) extends NgramIndex S where
  /-- The kind that files name. -/
  kind : Kind
  /-- Builds the structure; `bits` is the width of quantized weights. -/
  build : (bits : Nat) → Arpa → S
  /-- The number of n-grams of each order. -/
  counts : S → List Nat
  /-- Whether a structure that was read from a file can be searched. -/
  validate : S → Except Flaw Unit
  /-- How files hold the structure. -/
  codec : Codec S

/-- The node and weights of a word, its number being its node. -/
def unigramAt (unigrams : Array Weights) (word : WordId) : Node × Weights :=
  match unigrams[word]? with
  | some weights => (word, weights)
  | none => (unknownId, unigrams.getD unknownId default)

end BackoffLM

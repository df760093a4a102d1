import BackoffLM.Vocabulary

/-!
# The n-grams of a model

`Arpa` holds what an ARPA file says: the vocabulary with the weights of each word, and for each
order from 2 on the n-grams in the order of the file. Every search structure is built from it.
-/

namespace BackoffLM

/-- The contents of an ARPA file. -/
structure Arpa where
  vocabulary : Vocabulary
  /-- The file itself gives weights to `<unk>`. -/
  hasUnknown : Bool
  /-- Weights by word number. -/
  unigrams : Array Weights
  /-- The n-grams of order 2, 3 and so on. -/
  ngrams : List (Array Entry)
  deriving Inhabited

namespace Arpa

/-- The length of the longest n-grams. -/
def order (a : Arpa) : Nat := orderOf a.ngrams.length

/-- The number of n-grams of each order. -/
def counts (a : Arpa) : List Nat := a.unigrams.size :: a.ngrams.map Array.size

end Arpa

end BackoffLM

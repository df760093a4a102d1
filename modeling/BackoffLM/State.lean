import BackoffLM.Ngram

/-!
# Scoring states

A state is what scoring keeps of the words before: the newest ones first, each with the backoff
weight of the n-gram that reaches back from the newest word to it. No longer context can matter for
the next word.
-/

namespace BackoffLM

/-- A word of a context, with the backoff weight of the n-gram from it to the newest word. -/
structure ContextWord where
  word : WordId
  backoff : LogProb
  deriving DecidableEq, Repr, Inhabited

/-- The words before the next one, newest first. -/
structure State where
  context : List ContextWord
  deriving DecidableEq, Repr, Inhabited

namespace State

/-- No context at all. -/
def empty : State := ⟨[]⟩

/-- The words of the context. -/
def words (s : State) : List WordId := s.context.map ContextWord.word

/-- The backoff weights beside the words. -/
def backoffs (s : State) : List LogProb := s.context.map ContextWord.backoff

/-- The number of words. -/
def length (s : State) : Nat := s.context.length

end State

/-- The score of a word. -/
structure Score where
  logProb : LogProb
  /-- The length of the longest n-gram found, the scored word included. -/
  length : Nat
  deriving DecidableEq, Repr, Inhabited

end BackoffLM

import BackoffLM.Kind
import BackoffLM.State
import BackoffLM.Vocabulary

/-!
# Language models as callers see them

Callers score words through a record of operations, whatever search structure a model has. A run of
scoring threads a state from word to word.
-/

namespace BackoffLM

/-- The operations of a loaded model. -/
structure LanguageModel where
  kind : Kind
  /-- The length of the longest n-grams. -/
  order : Nat
  vocabulary : Vocabulary
  /-- The state before any word. -/
  nullState : State
  /-- The state after `<s>` alone. -/
  beginState : State
  /-- Scores a word in a state, with the state after it. -/
  score : State → WordId → Score × State
  /-- Scores a word after a context given newest word first, with the state after it. -/
  scoreAfter : List WordId → WordId → Score × State

end BackoffLM

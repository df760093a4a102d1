import BackoffLM.LanguageModel

/-!
# Runs of scoring calls

A run is a list of calls to one model. Each scores a word after a context of its own, or in a state:
that before any word, that at the beginning of a sentence, or one that an earlier call of the run
returned. `run` gives the answers of all calls in order.
-/

namespace BackoffLM.LanguageModel

/-- The state that a call scores in. -/
inductive Start where
  | null
  | begin
  /-- The state that an earlier call returned. -/
  | result (call : Nat)
  deriving DecidableEq, Repr

/-- A call that scores a word. -/
inductive Request where
  | inState (start : Start) (word : WordId)
  /-- The context is given newest word first. -/
  | inContext (context : List WordId) (word : WordId)
  deriving DecidableEq, Repr

variable (lm : LanguageModel)

/-- The state of a start after some answers; that before any word when there is no such answer. -/
def stateOf (done : List (Score × State)) : Start → State
  | .null => lm.nullState
  | .begin => lm.beginState
  | .result call => (done[call]?.map Prod.snd).getD lm.nullState

/-- The score of the word and the state after it, given the answers so far. -/
def answer (done : List (Score × State)) : Request → Score × State
  | .inState start word => lm.score (lm.stateOf done start) word
  | .inContext context word => lm.scoreAfter context word

/-- The answers so far and those of the calls to come. -/
def run : (done : List (Score × State)) → List Request → List (Score × State)
  | done, [] => done
  | done, request :: requests => run (done ++ [lm.answer done request]) requests

end BackoffLM.LanguageModel

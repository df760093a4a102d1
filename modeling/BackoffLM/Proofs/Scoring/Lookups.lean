import BackoffLM.Proofs.Scoring.Agreement

/-!
# Same lookups, same scores

A score, the state after a context and a whole run of calls depend on a search structure only
through its order and through what it answers when words are looked up and extended. Two indices
with the `SameLookups` find the same chains (`SameLookups.chain?_eq`), and models over one
vocabulary answer every run alike (`SameLookups.run_eq`), whatever the structures look like inside.
-/

namespace BackoffLM

open NgramIndex

/-- Two indices have one order and give the same nodes and weights for every lookup. -/
structure SameLookups {S T : Type} [NgramIndex S] [NgramIndex T] (i : S) (j : T) : Prop where
  order_eq : order i = order j
  unigram_eq : ∀ word, unigram i word = unigram j word
  extend_eq : ∀ level node word, extend i level node word = extend j level node word

namespace SameLookups

section Walks

variable {S T : Type} [NgramIndex S] [NgramIndex T] {i : S} {j : T} (h : SameLookups i j)
include h

/-- Both use as much context. -/
theorem contextLimit_eq : contextLimit i = contextLimit j := by
  rw [contextLimit, contextLimit, h.order_eq]

/-- From one node both walk alike. -/
theorem extensions_eq (level : Nat) (node : Node) (older : List WordId) :
    extensions i level node older = extensions j level node older := by
  induction older generalizing level node with
  | nil => rfl
  | cons word older ih =>
    have hstep := h.extend_eq level node word
    cases hnext : extend j level node word with
    | none =>
      rw [hnext] at hstep
      rw [extensions_of_none i hstep, extensions_of_none j hnext]
    | some next =>
      rw [hnext] at hstep
      rw [extensions_of_some i hstep, extensions_of_some j hnext, ih]

/-- From one node both find the same chains. -/
theorem follow_eq (level : Nat) (here : Node × Weights) (older : List WordId) :
    follow i level here older = follow j level here older := by
  induction older generalizing level here with
  | nil => rfl
  | cons word older ih =>
    rw [follow, follow, h.extend_eq]
    cases extend j level here.1 word with
    | none => rfl
    | some next => exact ih (level + 1) next

/-- Both find the same chains, with the same nodes and weights. -/
theorem chain?_eq (word : WordId) (older : List WordId) :
    chain? i word older = chain? j word older := by
  rw [chain?, chain?, h.unigram_eq, h.follow_eq]

/-- Both have the same state after a context. -/
theorem contextState_eq (context : List WordId) :
    contextState i context = contextState j context := by
  apply contextState_congr h.contextLimit_eq
  · intro word
    rw [h.unigram_eq]
  · intro newest older _
    rw [h.unigram_eq, h.extensions_eq]

/-- Both score a word in a state alike. -/
theorem score_eq (state : State) (word : WordId) : score i state word = score j state word := by
  apply score_congr h.contextLimit_eq
  · rw [h.unigram_eq]
  · rw [h.unigram_eq, h.extensions_eq]

/-- Both score a word after a context alike. -/
theorem scoreAfter_eq (context : List WordId) (word : WordId) :
    scoreAfter i context word = scoreAfter j context word := by
  rw [scoreAfter, scoreAfter, h.contextState_eq, h.score_eq]

end Walks

section Runs

variable {S T : Type} [StoredIndex S] [StoredIndex T] {m : Model S} {n : Model T}
  (h : SameLookups m.index n.index) (hvocabulary : m.vocabulary = n.vocabulary)
include h hvocabulary

/-- Models over one vocabulary answer a call alike. -/
theorem answer_eq (done : List (Score × State)) (request : LanguageModel.Request) :
    m.toLanguageModel.answer done request = n.toLanguageModel.answer done request := by
  cases request with
  | inState start word =>
    have hstate : m.toLanguageModel.stateOf done start = n.toLanguageModel.stateOf done start := by
      cases start with
      | null => rfl
      | begin =>
        show contextState m.index [m.vocabulary.beginId] =
          contextState n.index [n.vocabulary.beginId]
        rw [hvocabulary, h.contextState_eq]
      | result call => rfl
    show score m.index (m.toLanguageModel.stateOf done start) word =
      score n.index (n.toLanguageModel.stateOf done start) word
    rw [hstate, h.score_eq]
  | inContext context word => exact h.scoreAfter_eq context word

/-- Models over one vocabulary answer a run alike. -/
theorem run_eq (done : List (Score × State)) (requests : List LanguageModel.Request) :
    m.toLanguageModel.run done requests = n.toLanguageModel.run done requests := by
  induction requests generalizing done with
  | nil => rfl
  | cons request requests ih =>
    rw [LanguageModel.run, LanguageModel.run, h.answer_eq hvocabulary, ih]

end Runs

end SameLookups

end BackoffLM

import BackoffLM.Proofs.Scoring.Runs
import BackoffLM.Proofs.Scoring.Walk

/-!
# Renamed words

An index `Renames` words by a function when it looks every word up as the word that the function
gives. Then walks find the renamed words with the same weights (`Renames.extensions_map`), states
hold the renamed words with the same backoff weights, and scores stay the same
(`Renames.score_map`). So a run of renamed calls gets the renamed answers of the run
(`Renames.run_map`): from call to call the states of both runs differ in the names of words only.
-/

namespace BackoffLM

open NgramIndex

/-- A state with its words renamed. -/
def State.rename (f : WordId → WordId) (s : State) : State :=
  ⟨s.context.map fun c => ⟨f c.word, c.backoff⟩⟩

/-- An answer with the words of its state renamed. -/
def renameAnswer (f : WordId → WordId) (x : Score × State) : Score × State := (x.1, x.2.rename f)

/-- A call with the word that it scores and those of its context renamed. -/
def LanguageModel.Request.rename (f : WordId → WordId) : LanguageModel.Request → Request
  | .inState start word => .inState start (f word)
  | .inContext context word => .inContext (context.map f) (f word)

namespace State

variable (f : WordId → WordId) (s : State)

@[simp]
theorem words_rename : (s.rename f).words = s.words.map f := by
  rw [words, rename, List.map_map, words, List.map_map]
  rfl

@[simp]
theorem backoffs_rename : (s.rename f).backoffs = s.backoffs := by
  rw [backoffs, rename, List.map_map]
  rfl

end State

/-- Renamed words that were found have the same backoff weights. -/
theorem map_contextWord_rename (f : WordId → WordId) (found : List (WordId × Weights)) :
    (found.map fun found => (f found.1, found.2)).map contextWord =
      (found.map contextWord).map fun c => ⟨f c.word, c.backoff⟩ := by
  rw [List.map_map, List.map_map]
  rfl

/-- An index looks words up as the words that they are renamed to. -/
structure Renames {S : Type} [NgramIndex S] (index : S) (f : WordId → WordId) : Prop where
  unigram_eq : ∀ word, unigram index (f word) = unigram index word
  extend_eq : ∀ level node word, extend index level node (f word) = extend index level node word

namespace Renames

section Walks

variable {S : Type} [NgramIndex S] {index : S} {f : WordId → WordId} (h : Renames index f)
include h

/-- A walk over renamed words finds them with the weights of the walk over the words. -/
theorem extensions_map (level : Nat) (node : Node) (older : List WordId) :
    extensions index level node (older.map f) =
      (extensions index level node older).map fun found => (f found.1, found.2) := by
  induction older generalizing level node with
  | nil => rfl
  | cons word older ih =>
    have hstep := h.extend_eq level node word
    rw [List.map_cons]
    cases hnext : extend index level node word with
    | none =>
      rw [hnext] at hstep
      rw [extensions_of_none index hstep, extensions_of_none index hnext, List.map_nil]
    | some next =>
      rw [hnext] at hstep
      rw [extensions_of_some index hstep, extensions_of_some index hnext, ih, List.map_cons]

/-- The state after a renamed context is the renamed state. -/
theorem contextState_map (context : List WordId) :
    contextState index (context.map f) = (contextState index context).rename f := by
  unfold contextState
  rw [← List.map_take]
  cases context.take (contextLimit index) with
  | nil => rfl
  | cons newest older =>
    rw [List.map_cons]
    dsimp only
    rw [h.unigram_eq, h.extensions_map, map_contextWord_rename]
    rfl

/-- A renamed word has the same score in the renamed state, and leaves the renamed state. -/
theorem score_map (state : State) (word : WordId) :
    score index (state.rename f) (f word) = renameAnswer f (score index state word) := by
  have hprobs : ∀ found : List (WordId × Weights),
      (found.map fun found => (f found.1, found.2)).getLast?.map (fun found => found.2.prob) =
        found.getLast?.map fun found => found.2.prob := by
    intro found
    rw [List.getLast?_map, Option.map_map]
    rfl
  unfold score
  dsimp only
  rw [h.unigram_eq, State.words_rename, State.backoffs_rename, h.extensions_map, hprobs,
    List.length_map, map_contextWord_rename]
  refine Prod.ext rfl ?_
  rw [renameAnswer, State.rename, List.map_take, List.map_cons]

/-- A renamed word has the same score after the renamed context, and leaves the renamed state. -/
theorem scoreAfter_map (context : List WordId) (word : WordId) :
    scoreAfter index (context.map f) (f word) = renameAnswer f (scoreAfter index context word) := by
  rw [scoreAfter, h.contextState_map, h.score_map, scoreAfter]

end Walks

section Runs

variable {S : Type} [StoredIndex S] {m : Model S} {f : WordId → WordId} (h : Renames m.index f)
  (hbegin : f m.vocabulary.beginId = m.vocabulary.beginId)
include h hbegin

/-- After renamed answers a call scores in the renamed state. -/
theorem stateOf_map (done : List (Score × State)) (start : LanguageModel.Start) :
    m.toLanguageModel.stateOf (done.map (renameAnswer f)) start =
      (m.toLanguageModel.stateOf done start).rename f := by
  cases start with
  | null => rfl
  | begin =>
    show contextState m.index [m.vocabulary.beginId] =
      (contextState m.index [m.vocabulary.beginId]).rename f
    rw [← h.contextState_map, List.map_singleton, hbegin]
  | result call =>
    show (((done.map (renameAnswer f))[call]?).map Prod.snd).getD State.empty =
      ((done[call]?.map Prod.snd).getD State.empty).rename f
    rw [List.getElem?_map]
    cases done[call]? with
    | none => rfl
    | some answer => rfl

/-- After renamed answers a renamed call gets the renamed answer. -/
theorem answer_map (done : List (Score × State)) (request : LanguageModel.Request) :
    m.toLanguageModel.answer (done.map (renameAnswer f)) (request.rename f) =
      renameAnswer f (m.toLanguageModel.answer done request) := by
  cases request with
  | inState start word =>
    show score m.index (m.toLanguageModel.stateOf (done.map (renameAnswer f)) start) (f word) = _
    rw [h.stateOf_map hbegin, h.score_map]
    rfl
  | inContext context word => exact h.scoreAfter_map context word

/-- A run of renamed calls gets the renamed answers. -/
theorem run_map (done : List (Score × State)) (requests : List LanguageModel.Request) :
    m.toLanguageModel.run (done.map (renameAnswer f)) (requests.map (.rename f)) =
      (m.toLanguageModel.run done requests).map (renameAnswer f) := by
  induction requests generalizing done with
  | nil => rfl
  | cons request requests ih =>
    rw [List.map_cons, LanguageModel.run, h.answer_map hbegin, ← List.map_singleton,
      ← List.map_append, ih, LanguageModel.run]

end Runs

end Renames

end BackoffLM

import BackoffLM.Arpa.Reader
import BackoffLM.Files
import BackoffLM.IdMap
import BackoffLM.Model.Binary

/-!
# Scoring words by callers' numbers

A `Scorer` is a loaded model with a caller's numbers for its words. `prob` scores the last of a list
of numbers after the others, and `probString` adds up the scores of the numbers from a place on.
Words that count as unknown cost the fixed log probability, but stay part of the context of later
words. `Scorer.ofFile` loads a model from a binary file of any kind, and from ARPA text when the
file does not open as a binary file does.
-/

namespace BackoffLM

/-- A loaded model, how unknown words are scored, and the caller's numbers for words. -/
structure Scorer where
  model : LanguageModel
  oov : OovScoring
  ids : IdMap

namespace Scorer

/-- A model without any words registered. -/
def ofModel (model : LanguageModel) (oov : OovScoring) : Scorer := ⟨model, oov, .empty⟩

/-- Registers the model's number of a word under a caller's, and tells whether the caller's number
was registered before. -/
def register (word : String) (id : ExternalId) (memory : Memory := .ample) :
    Action Scorer Bool := do
  let s ← get
  Action.within Scorer.ids (fun ids s => { s with ids })
    (IdMap.register id (s.model.vocabulary.idOf word) memory)

/-! ## Scores -/

/-- Whether a caller's number counts as unknown. -/
def isFake (s : Scorer) (id : ExternalId) : Bool := s.oov.isFake id (s.ids.wordOf id)

/-- The score that counts for a number, given the model's. -/
def cost (s : Scorer) (id : ExternalId) (score : LogProb) : LogProb :=
  if s.isFake id then s.oov.fakeCost else score

/-- The context that any model can use of numbers in reading order, newest word first. -/
def context (s : Scorer) (ids : List ExternalId) : List WordId :=
  (ids.reverse.take (maxOrder - 1)).map s.ids.wordOf

/-- Scores a number after others in reading order, with the state after it. -/
def scoreAfter (s : Scorer) (before : List ExternalId) (id : ExternalId) : LogProb × State :=
  let (score, state) := s.model.scoreAfter (s.context before) (s.ids.wordOf id)
  (s.cost id score.logProb, state)

/-- Adds the scores of numbers to a total. Two states take turns: the first of two numbers is scored
in one and leaves the other, in which the second is scored. -/
def addScores (s : Scorer) : (total : LogProb) → State → List ExternalId → LogProb
  | total, _, [] => total
  | total, state, [id] =>
    let (score, _) := s.model.score state (s.ids.wordOf id)
    total + s.cost id score.logProb
  | total, state, first :: second :: ids =>
    let (score, other) := s.model.score state (s.ids.wordOf first)
    let total := total + s.cost first score.logProb
    let (score, state) := s.model.score other (s.ids.wordOf second)
    addScores s (total + s.cost second score.logProb) state ids

/-- The log probability of the last number after the others; zero for none. -/
def prob (s : Scorer) (ids : List ExternalId) : LogProb :=
  match ids.getLast? with
  | none => .zero
  | some last =>
    if s.isFake last then s.oov.fakeCost else (s.scoreAfter ids.dropLast last).1

/-- The sum of the log probabilities of the numbers from place `start` on, those before it being
context; zero when there are none. -/
def probString (s : Scorer) (ids : List ExternalId) (start : Nat) : LogProb :=
  match start, ids.drop start with
  | _, [] => .zero
  | 0, all => s.addScores .zero s.model.nullState all
  | _, id :: rest =>
    let (first, state) := s.scoreAfter (ids.take start) id
    s.addScores first state rest

/-! ## Files -/

/-- The model of ARPA text, as a hash table. -/
def modelOfArpa (a : Arpa) : LanguageModel :=
  (⟨a.vocabulary, Probing.ofArpa a⟩ : Model Probing).toLanguageModel

/-- Loads the model at a path: a binary file of the kind that its header names, or ARPA text. -/
def ofFile (files : Files) (path : String) (oov : OovScoring) : Except CallError Scorer := do
  let bytes ← (files.load path).mapError (.unreadable path)
  match ← (Header.recognize bytes).mapError (.unreadable path) with
  | none =>
    let arpa ← (Arpa.ofBytes bytes none).mapError (.unreadable path)
    .ok (ofModel (modelOfArpa arpa) oov)
  | some header =>
    match header.kind? with
    | none => .error (.unknownKind header.kindCode path)
    | some kind =>
      let mapped ← (files.loadMapped path).mapError (.unreadable path)
      let file ← (BinaryFile.ofBytes mapped).mapError (.unreadable path)
      let model ← (LanguageModel.ofBinary kind file).mapError (.unreadable path)
      .ok (ofModel model oov)

end Scorer

end BackoffLM

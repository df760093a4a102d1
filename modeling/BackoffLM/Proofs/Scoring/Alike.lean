import BackoffLM.Proofs.Quantization.Values
import BackoffLM.Proofs.Scoring.Runs
import BackoffLM.Proofs.Scoring.Walk

/-!
# Lookups with equal weights, equal scores

Two indices have alike lookups (`AlikeLookups`) when they find the same nodes with weights that are
finite and equal as numbers, where one zero may stand for the other. Their walks find the same words
with such weights (`AlikeLookups.extensions_alike`), so that states stay alike from call to call and
scores are equal as numbers (`AlikeLookups.score_alike`), through every run
(`AlikeLookups.run_alike`).
-/

namespace BackoffLM

open NgramIndex
open List (Forall₂)

/-- The same thing found, with weights that are finite and equal as numbers. -/
structure Weights.Alike {α : Type} (found other : α × Weights) : Prop where
  fst_eq : found.1 = other.1
  weights : found.2.SameFinite other.2

/-- The same word, with backoff weights that are finite and equal as numbers. -/
structure ContextWord.Alike (c d : ContextWord) : Prop where
  word_eq : c.word = d.word
  backoff : c.backoff.SameFinite d.backoff

/-- States of words that are alike. -/
def State.Alike (s t : State) : Prop := Forall₂ ContextWord.Alike s.context t.context

/-- Scores that are equal as numbers, for n-grams of one length, and states that are alike. -/
structure Answer.Alike (x y : Score × State) : Prop where
  logProb_eq : x.1.logProb.numEq y.1.logProb = true
  length_eq : x.1.length = y.1.length
  state : x.2.Alike y.2

namespace State.Alike

variable {s t : State} (h : s.Alike t)
include h

theorem words_eq : s.words = t.words := by
  rw [← List.forall₂_eq_eq_eq]
  exact List.forall₂_map_left_iff.mpr <| List.forall₂_map_right_iff.mpr <|
    h.imp fun _ _ => (·.word_eq)

theorem backoffs : Forall₂ LogProb.SameFinite s.backoffs t.backoffs :=
  List.forall₂_map_left_iff.mpr <| List.forall₂_map_right_iff.mpr <|
    h.imp fun _ _ => (·.backoff)

end State.Alike

section

variable {found other : List (WordId × Weights)} (h : Forall₂ Weights.Alike found other)
include h

/-- Words found alike are words of contexts that are alike. -/
theorem forall₂_contextWord :
    Forall₂ ContextWord.Alike (found.map contextWord) (other.map contextWord) :=
  List.forall₂_map_left_iff.mpr <| List.forall₂_map_right_iff.mpr <|
    h.imp fun _ _ h => ⟨h.fst_eq, h.weights.backoff⟩

/-- The last log probabilities found are equal, or those that count when nothing is found. -/
theorem sameFinite_getLast {p q : LogProb} (hpq : p.SameFinite q) :
    ((found.getLast?.map fun f => f.2.prob).getD p).SameFinite
      ((other.getLast?.map fun f => f.2.prob).getD q) := by
  induction h generalizing p q with
  | nil => exact hpq
  | cons hxy _ ih =>
    rw [List.getLast?_cons, List.getLast?_cons, Option.map_some, Option.map_some, Option.getD_some,
      Option.getD_some, ← Option.getD_map (fun f : WordId × Weights => f.2.prob),
      ← Option.getD_map (fun f : WordId × Weights => f.2.prob)]
    exact ih hxy.weights.prob

end

/-- Two indices have one order and find the same nodes, with weights that are finite and equal as
numbers. -/
structure AlikeLookups {S T : Type} [NgramIndex S] [NgramIndex T] (i : S) (j : T) : Prop where
  order_eq : order i = order j
  unigram_alike : ∀ word, Weights.Alike (unigram i word) (unigram j word)
  extend_alike : ∀ level node word,
    Option.Rel Weights.Alike (extend i level node word) (extend j level node word)

namespace AlikeLookups

section Walks

variable {S T : Type} [NgramIndex S] [NgramIndex T] {i : S} {j : T} (h : AlikeLookups i j)
include h

theorem contextLimit_eq : contextLimit i = contextLimit j := by
  rw [contextLimit, contextLimit, h.order_eq]

/-- From one node both walks find the same words. -/
theorem extensions_alike (level : Nat) (node : Node) (older : List WordId) :
    Forall₂ Weights.Alike (extensions i level node older) (extensions j level node older) := by
  induction older generalizing level node with
  | nil => exact .nil
  | cons word older ih =>
    have hstep := h.extend_alike level node word
    rw [extensions, extensions]
    generalize extend i level node word = found at hstep ⊢
    generalize extend j level node word = other at hstep ⊢
    cases hstep with
    | none => exact .nil
    | some hfound =>
      dsimp only
      rw [hfound.fst_eq]
      exact .cons ⟨rfl, hfound.weights⟩ (ih _ _)

/-- From one word both walks find the same words. -/
theorem extensions_unigram_alike (word : WordId) (older : List WordId) :
    Forall₂ Weights.Alike (extensions i 1 (unigram i word).1 older)
      (extensions j 1 (unigram j word).1 older) := by
  rw [(h.unigram_alike word).fst_eq]
  exact h.extensions_alike 1 _ older

/-- Both have alike states after a context. -/
theorem contextState_alike (context : List WordId) :
    (contextState i context).Alike (contextState j context) := by
  unfold contextState
  rw [h.contextLimit_eq]
  cases context.take (contextLimit j) with
  | nil => exact .nil
  | cons newest older =>
    exact .cons ⟨rfl, (h.unigram_alike newest).weights.backoff⟩
      (forall₂_contextWord (h.extensions_unigram_alike newest older))

/-- In alike states both give a word scores that are equal as numbers. -/
theorem score_alike {s t : State} (hst : s.Alike t) (word : WordId) :
    Answer.Alike (score i s word) (score j t word) := by
  have hword := (h.unigram_alike word).weights
  have hfound := h.extensions_unigram_alike word s.words
  unfold score
  dsimp only
  rw [← hst.words_eq, ← h.contextLimit_eq, ← hfound.length_eq]
  refine ⟨?_, rfl, ?_⟩
  · exact LogProb.numEq_add_sum (sameFinite_getLast hfound hword.prob)
      (List.forall₂_drop _ hst.backoffs)
  · exact List.forall₂_take _ (.cons ⟨rfl, hword.backoff⟩ (forall₂_contextWord hfound))

theorem scoreAfter_alike (context : List WordId) (word : WordId) :
    Answer.Alike (scoreAfter i context word) (scoreAfter j context word) :=
  h.score_alike (h.contextState_alike context) word

end Walks

section Runs

variable {S T : Type} [StoredIndex S] [StoredIndex T] {m : Model S} {n : Model T}
  (h : AlikeLookups m.index n.index) (hvocabulary : m.vocabulary = n.vocabulary)
  {done other : List (Score × State)} (hdone : Forall₂ Answer.Alike done other)
include h hvocabulary hdone

/-- After alike answers a call scores in alike states. -/
theorem stateOf_alike (start : LanguageModel.Start) :
    (m.toLanguageModel.stateOf done start).Alike (n.toLanguageModel.stateOf other start) := by
  cases start with
  | null => exact .nil
  | begin =>
    show (contextState m.index [m.vocabulary.beginId]).Alike
      (contextState n.index [n.vocabulary.beginId])
    rw [hvocabulary]
    exact h.contextState_alike _
  | result call =>
    show ((done[call]?.map Prod.snd).getD State.empty).Alike
      ((other[call]?.map Prod.snd).getD State.empty)
    clear h hvocabulary
    induction hdone generalizing call with
    | nil => exact .nil
    | cons hxy _ ih =>
      cases call with
      | zero => exact hxy.state
      | succ call => exact ih call

/-- After alike answers a call gets alike answers. -/
theorem answer_alike (request : LanguageModel.Request) :
    Answer.Alike (m.toLanguageModel.answer done request)
      (n.toLanguageModel.answer other request) := by
  cases request with
  | inState start word => exact h.score_alike (h.stateOf_alike hvocabulary hdone start) word
  | inContext context word => exact h.scoreAfter_alike context word

/-- Models over one vocabulary give alike answers in every run. -/
theorem run_alike (requests : List LanguageModel.Request) :
    Forall₂ Answer.Alike (m.toLanguageModel.run done requests)
      (n.toLanguageModel.run other requests) := by
  induction requests generalizing done other with
  | nil => exact hdone
  | cons request requests ih =>
    exact ih (List.rel_append hdone
      (.cons (h.answer_alike hvocabulary hdone request) .nil))

end Runs

end AlikeLookups

end BackoffLM

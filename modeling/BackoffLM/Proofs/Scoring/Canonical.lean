import BackoffLM.Proofs.Arpa.Reading
import BackoffLM.Proofs.Loaded
import BackoffLM.Proofs.Scoring.Slots

/-!
# The states of a run are canonical

A state is `Canonical` when it is the state after its own words, so that nothing but its words
matters for what is scored in it. Every context leads to such a state (`canonical_contextState`),
and a score leads from any state to the state after the scored word and the words before it
(`score_eq_contextState`). So every state of a run is canonical (`canonical_run`), whichever n-grams
are stored, and scoring in it is scoring after its words.
`canonical_of_run` says the same of the places in which the states of a run are kept, which the
loops of `Slots` fill: no more are in use than the order allows, the others hold zero, and filling
them from the words in use gives the same places again.
-/

namespace BackoffLM

namespace NgramIndex

variable {S : Type} [NgramIndex S] {index : S}

/-- A state is that after its own words. -/
def Canonical (index : S) (state : State) : Prop := contextState index state.words = state

/-- The state before any word has no words. -/
theorem canonical_empty (index : S) : Canonical index .empty := by
  apply contextState_of_take_eq_nil
  exact List.take_nil

/-- A canonical state has no more words than a score can use. -/
theorem Canonical.length_le {state : State} (h : Canonical index state) :
    state.length ≤ contextLimit index := by
  have hle := length_contextState_le index state.words
  rw [h] at hle
  exact hle

/-- Words past those that a score can use make no difference to a state. -/
theorem contextState_take (context : List WordId) :
    contextState index (context.take (contextLimit index)) = contextState index context := by
  unfold contextState
  rw [List.take_take, Nat.min_self]

/-- The state after the words that a walk finds is the state after all of its words. -/
theorem contextState_take_extensions (word : WordId) (older : List WordId) :
    contextState index
        (word :: older.take (extensions index 1 (unigram index word).1 older).length) =
      contextState index (word :: older) := by
  rcases Nat.eq_zero_or_pos (contextLimit index) with h0 | hpos
  · have hnil : ∀ context : List WordId, context.take (contextLimit index) = [] := by
      intro context
      rw [h0, List.take_zero]
    rw [contextState_of_take_eq_nil index (hnil _), contextState_of_take_eq_nil index (hnil _)]
  · -- The walk over what it found finds it again, and nothing after it.
    have hwalk : extensions index 1 (unigram index word).1
          ((older.take (extensions index 1 (unigram index word).1 older).length).take
            (contextLimit index - 1)) =
        extensions index 1 (unigram index word).1 (older.take (contextLimit index - 1)) := by
      rw [extensions_take, extensions_take, extensions_take, List.take_length]
    apply congrArg State.mk
    change (contextState index _).context = (contextState index _).context
    rw [contextState_cons index _ _ hpos, contextState_cons index _ _ hpos, hwalk]

/-- After a context the state is canonical. -/
theorem canonical_contextState (context : List WordId) :
    Canonical index (contextState index context) := by
  unfold Canonical
  cases hcut : context.take (contextLimit index) with
  | nil =>
    rw [contextState_of_take_eq_nil index hcut]
    exact canonical_empty index
  | cons newest older =>
    have hwords : (contextState index context).words =
        newest :: older.take (extensions index 1 (unigram index newest).1 older).length := by
      unfold contextState
      rw [hcut, ← map_fst_extensions]
      simp [State.words, contextWord]
    calc contextState index (contextState index context).words
        = contextState index (newest :: older) := by
          rw [hwords, contextState_take_extensions]
      _ = contextState index context := by rw [← hcut, contextState_take]

/-- After a score the state is that after the scored word and the words of the state before. -/
theorem score_eq_contextState (state : State) (word : WordId) :
    (score index state word).2 = contextState index (word :: state.words) := by
  have hnext : (score index state word).2.context =
      (⟨word, (unigram index word).2.backoff⟩ ::
        (extensions index 1 (unigram index word).1 state.words).map contextWord).take
          (contextLimit index) := rfl
  apply congrArg State.mk
  change (score index state word).2.context = (contextState index _).context
  rcases Nat.eq_zero_or_pos (contextLimit index) with h0 | hpos
  · have hnil : (word :: state.words).take (contextLimit index) = [] := by
      rw [h0, List.take_zero]
    rw [hnext, h0, List.take_zero, contextState_of_take_eq_nil index hnil]
    rfl
  · obtain ⟨n, hn⟩ : ∃ n, contextLimit index = n + 1 := ⟨contextLimit index - 1, by omega⟩
    rw [hnext, contextState_cons index word state.words hpos, hn, List.take_succ_cons,
      Nat.add_sub_cancel, extensions_take, List.map_take]

/-- After a score the state is canonical. -/
theorem canonical_score (state : State) (word : WordId) :
    Canonical index (score index state word).2 := by
  rw [score_eq_contextState]
  exact canonical_contextState _

/-- In a canonical state a word is scored as after the words of the state. -/
theorem Canonical.score_eq {state : State} (h : Canonical index state) (word : WordId) :
    score index state word = scoreAfter index state.words word := by
  rw [scoreAfter, h]

/-- A canonical state fits into its places. -/
theorem Canonical.length_le_slots {state : State} (h : Canonical index state)
    (hmax : order index ≤ maxOrder) : state.length ≤ stateSlots := by
  have hle := h.length_le
  unfold contextLimit at hle
  unfold stateSlots
  omega

end NgramIndex

/-! ## Runs -/

namespace Model

open NgramIndex
open LanguageModel (Start Request)

variable {S : Type} [StoredIndex S] (m : Model S)

/-- The places of a start after some answers. -/
def slotsOf (done : List (Score × Slots)) : Start → Slots
  | .null => .blank
  | .begin => contextSlots m.index [m.vocabulary.beginId]
  | .result call => (done[call]?.map Prod.snd).getD .blank

/-- The answer to a call, with the places of the state after it. -/
def answerSlots (done : List (Score × Slots)) : Request → Score × Slots
  | .inState start word => scoreSlots m.index (m.slotsOf done start) word
  | .inContext context word => scoreAfterSlots m.index context word

/-- The answers so far and those of the calls to come. -/
def runSlots : (done : List (Score × Slots)) → List Request → List (Score × Slots)
  | done, [] => done
  | done, request :: requests => runSlots (done ++ [m.answerSlots done request]) requests

/-- An answer with its state in places. -/
def inPlaces (answer : Score × State) : Score × Slots := (answer.1, .ofState answer.2)

variable {m} {done : List (Score × State)}

/-- A call starts in a canonical state when those that were returned are canonical. -/
theorem canonical_stateOf (hdone : ∀ answer ∈ done, Canonical m.index answer.2) (start : Start) :
    Canonical m.index (m.toLanguageModel.stateOf done start) := by
  cases start with
  | null => exact canonical_empty m.index
  | begin => exact canonical_contextState [m.vocabulary.beginId]
  | result call =>
    show Canonical m.index ((done[call]?.map Prod.snd).getD State.empty)
    cases hcall : done[call]? with
    | none => exact canonical_empty m.index
    | some answer => exact hdone answer (List.mem_of_getElem? hcall)

/-- Every call returns a canonical state, whatever state it starts in. -/
theorem canonical_answer (request : Request) :
    Canonical m.index (m.toLanguageModel.answer done request).2 := by
  cases request with
  | inState start word => exact canonical_score _ word
  | inContext context word => exact canonical_score _ word

/-- A call adds a canonical state to those that were returned. -/
theorem canonical_append_answer (hdone : ∀ answer ∈ done, Canonical m.index answer.2)
    (request : Request) :
    ∀ answer ∈ done ++ [m.toLanguageModel.answer done request], Canonical m.index answer.2 := by
  intro answer hmem
  rcases List.mem_append.mp hmem with hold | hnew
  · exact hdone answer hold
  · rw [List.mem_singleton.mp hnew]
    exact canonical_answer request

/-- A run returns canonical states. -/
theorem canonical_run (hdone : ∀ answer ∈ done, Canonical m.index answer.2)
    (requests : List Request) :
    ∀ answer ∈ m.toLanguageModel.run done requests, Canonical m.index answer.2 := by
  induction requests generalizing done with
  | nil => exact hdone
  | cons request requests ih => exact ih (canonical_append_answer hdone request)

/-- The places of a start are those of its state. -/
theorem slotsOf_inPlaces (done : List (Score × State)) (start : Start) :
    m.slotsOf (done.map inPlaces) start = .ofState (m.toLanguageModel.stateOf done start) := by
  cases start with
  | null => exact Slots.ofState_empty.symm
  | begin => exact contextSlots_eq [m.vocabulary.beginId]
  | result call =>
    show (((done.map inPlaces)[call]?).map Prod.snd).getD .blank =
      .ofState ((done[call]?.map Prod.snd).getD State.empty)
    rw [List.getElem?_map]
    cases done[call]? with
    | none => exact Slots.ofState_empty.symm
    | some answer => rfl

variable (hmax : order m.index ≤ maxOrder)
include hmax

/-- A call gives the same score with states in places, and leaves the places of its state. -/
theorem answerSlots_inPlaces (hdone : ∀ answer ∈ done, Canonical m.index answer.2)
    (request : Request) :
    m.answerSlots (done.map inPlaces) request =
      inPlaces (m.toLanguageModel.answer done request) := by
  cases request with
  | inState start word =>
    have hfits := (canonical_stateOf hdone start).length_le_slots hmax
    rw [answerSlots, slotsOf_inPlaces, scoreSlots_eq hfits]
    rfl
  | inContext context word =>
    have hcanonical : Canonical m.index (contextState m.index context) :=
      canonical_contextState context
    have hfits := hcanonical.length_le_slots hmax
    rw [answerSlots, scoreAfterSlots, contextSlots_eq, scoreSlots_eq hfits]
    rfl

/-- A run gives the same scores with states in places, and leaves the places of its states. -/
theorem runSlots_inPlaces (hdone : ∀ answer ∈ done, Canonical m.index answer.2)
    (requests : List Request) :
    m.runSlots (done.map inPlaces) requests =
      (m.toLanguageModel.run done requests).map inPlaces := by
  induction requests generalizing done with
  | nil => rfl
  | cons request requests ih =>
    have hrest := ih (canonical_append_answer hdone request)
    rw [List.map_append, List.map_singleton] at hrest
    rw [runSlots, answerSlots_inPlaces hmax hdone, hrest, LanguageModel.run]

omit hmax

/-- In a loaded model of any kind, every state of a run, be it one that a call started in or one
that it returned, has at most `order - 1` words and is the state after its own words, so that a
word is scored in it as after them; and it is so in the places in which states are kept, where all
that is not in use holds zero. -/
theorem canonical_of_run {kind : Kind} {m : Model kind.Index} (h : m.Loaded)
    (requests : List Request) (start : Start) :
    let state := m.toLanguageModel.stateOf (m.toLanguageModel.run [] requests) start
    let slots := m.slotsOf (m.runSlots [] requests) start
    state.length ≤ order m.index - 1 ∧ contextState m.index state.words = state ∧
      (∀ word, m.toLanguageModel.score state word =
        m.toLanguageModel.scoreAfter state.words word) ∧
      slots = .ofState state ∧ slots.Clean ∧ contextSlots m.index slots.inUse = slots ∧
      ∀ word, scoreSlots m.index slots word = scoreAfterSlots m.index slots.inUse word := by
  intro state slots
  obtain ⟨-, hmax⟩ := h.order_bounds
  have hdone : ∀ answer ∈ ([] : List (Score × State)), Canonical m.index answer.2 := by
    intro answer hmem
    exact absurd hmem List.not_mem_nil
  have hstate : Canonical m.index state := canonical_stateOf (canonical_run hdone requests) start
  have hslots : slots = .ofState state := by
    show m.slotsOf (m.runSlots (([] : List (Score × State)).map inPlaces) requests) start = _
    rw [runSlots_inPlaces hmax hdone, slotsOf_inPlaces]
  have hinUse : slots.inUse = state.words := by
    rw [hslots]
    exact Slots.inUse_ofState (hstate.length_le_slots hmax)
  have hagain : contextSlots m.index slots.inUse = slots := by
    rw [hinUse, contextSlots_eq, hstate, hslots]
  refine ⟨hstate.length_le, hstate, fun word => hstate.score_eq word, hslots, ?_, hagain, ?_⟩
  · rw [hslots]
    exact Slots.clean_ofState state
  · intro word
    rw [scoreAfterSlots, hagain]

/-- In a trie of order 4 the state after `a b a`, which holds three words. -/
theorem canonical_of_run_sample :
    let m : Model Kind.trie.Index := ofArpa 8 Arpa.sampleArpa
    let requests : List Request := [.inState .begin 2, .inState (.result 0) 3,
      .inState (.result 1) 2]
    let state := m.toLanguageModel.stateOf (m.toLanguageModel.run [] requests) (.result 2)
    let slots := m.slotsOf (m.runSlots [] requests) (.result 2)
    m.Loaded ∧ state.length ≤ order m.index - 1 ∧ contextState m.index state.words = state ∧
      (∀ word, m.toLanguageModel.score state word =
        m.toLanguageModel.scoreAfter state.words word) ∧
      slots = .ofState state ∧ slots.Clean ∧ contextSlots m.index slots.inUse = slots ∧
      ∀ word, scoreSlots m.index slots word = scoreAfterSlots m.index slots.inUse word := by
  have hloaded : (ofArpa 8 Arpa.sampleArpa : Model Kind.trie.Index).Loaded :=
    .arpa 8 Arpa.ofBytes_sample
  exact ⟨hloaded, canonical_of_run hloaded _ _⟩

end Model

end BackoffLM

import BackoffLM.Proofs.Files.Container
import BackoffLM.Proofs.Files.Payload
import BackoffLM.Proofs.Safety.Index
import BackoffLM.Proofs.Scoring.Runs
import BackoffLM.Proofs.Scoring.Walk

/-!
# Models that were read can be used

A model that is read from a binary file has passed the checks of its structure and of its order,
however its payload came about. `accepted_model_safe` says that this is enough: every run of calls,
over any words and contexts, and every chain of lookups goes through with every access guarded, and
gives what the run and the chain give. States have `stateSlots` places for words and for backoff
weights. Over a run the invariant is that no state that was returned has more words than that; the
order, which is at least 1 and at most `maxOrder`, keeps each new one within them.
-/

namespace BackoffLM

/-- The places of a state. -/
def stateSlots : Nat := maxOrder - 1

namespace NgramIndex

/-! ## States of bounded size -/

variable {S : Type}

/-- Writes a state, or reads one: its words must have places. -/
def slotsGuarded (state : State) : Except Fault State :=
  if stateSlots < state.length then .error .outOfRange else .ok state

/-- A state of few words has a place for each. -/
theorem slotsGuarded_eq {state : State} (h : state.length ≤ stateSlots) :
    slotsGuarded state = .ok state :=
  if_neg (by omega)

/-- The longest context that a score can use: one less than the order, which must not be 0. -/
def contextLimitGuarded [NgramIndex S] (index : S) : Except Fault Nat :=
  if order index = 0 then .error .outOfRange else .ok (contextLimit index)

/-- The order leaves a context that fits into a state. -/
theorem contextLimitGuarded_eq [NgramIndex S] {index : S} (hpos : 1 ≤ order index)
    (hmax : order index ≤ maxOrder) :
    contextLimitGuarded index = .ok (contextLimit index) ∧ contextLimit index ≤ stateSlots := by
  refine ⟨if_neg (by omega), ?_⟩
  unfold contextLimit stateSlots
  omega

variable [StoredIndex S] [GuardedIndex S]

open GuardedIndex (unigramGuarded extendGuarded Sound)

/-! ## Guarded scoring -/

/-- The walk of `extensions`. -/
def extensionsGuarded (index : S) :
    (level : Nat) → Node → List WordId → Except Fault (List (WordId × Weights))
  | _, _, [] => .ok []
  | level, node, word :: older => do
    match ← extendGuarded index level node word with
    | none => .ok []
    | some (next, weights) =>
      let found ← extensionsGuarded index (level + 1) next older
      .ok ((word, weights) :: found)

/-- The chain of `follow`. -/
def followGuarded (index : S) :
    (level : Nat) → Node × Weights → List WordId → Except Fault (Option (Node × Weights))
  | _, here, [] => .ok (some here)
  | level, here, word :: older => do
    match ← extendGuarded index level here.1 word with
    | none => .ok none
    | some next => followGuarded index (level + 1) next older

/-- The chain of `chain?`. -/
def chainGuarded (index : S) (word : WordId) (older : List WordId) :
    Except Fault (Option (Node × Weights)) := do
  followGuarded index 1 (← unigramGuarded index word) older

/-- The state after a context. -/
def contextStateGuarded (index : S) (context : List WordId) : Except Fault State := do
  let limit ← contextLimitGuarded index
  match context.take limit with
  | [] => .ok .empty
  | newest :: older => do
    let (node, weights) ← unigramGuarded index newest
    let found ← extensionsGuarded index 1 node older
    slotsGuarded ⟨⟨newest, weights.backoff⟩ :: found.map contextWord⟩

/-- Scores a word in a state. The backoff weights are taken from the words found on. -/
def scoreGuarded (index : S) (state : State) (word : WordId) : Except Fault (Score × State) := do
  let limit ← contextLimitGuarded index
  let (node, alone) ← unigramGuarded index word
  let state ← slotsGuarded state
  let found ← extensionsGuarded index 1 node state.words
  let prob := (found.getLast?.map fun f => f.2.prob).getD alone.prob
  let next ← slotsGuarded ⟨(⟨word, alone.backoff⟩ :: found.map contextWord).take limit⟩
  Guarded.stretch state.length found.length state.length
  .ok (⟨prob + .sum (state.backoffs.drop found.length), found.length + 1⟩, next)

/-- Scores a word after a context. -/
def scoreAfterGuarded (index : S) (context : List WordId) (word : WordId) :
    Except Fault (Score × State) := do
  scoreGuarded index (← contextStateGuarded index context) word

/-! ## Scoring goes well -/

variable {index : S}

/-- A walk in a sound index goes well. -/
theorem extensionsGuarded_eq (h : Sound index) {level : Nat} (hlevel : 1 ≤ level) (node : Node)
    (older : List WordId) :
    extensionsGuarded index level node older = .ok (extensions index level node older) := by
  induction older generalizing level node with
  | nil => rfl
  | cons word older ih =>
    rw [extensionsGuarded, extensions, GuardedIndex.extendGuarded_eq index h level node word hlevel,
      ok_bind]
    cases extend index level node word with
    | none => rfl
    | some next =>
      dsimp only
      rw [ih (by omega), ok_bind]

/-- A chain in a sound index goes well. -/
theorem chainGuarded_eq (h : Sound index) (word : WordId) (older : List WordId) :
    chainGuarded index word older = .ok (chain? index word older) := by
  -- The chain goes from level 1 down, and asks at no level 0.
  have hfollow : ∀ (level : Nat) (here : Node × Weights), 1 ≤ level →
      followGuarded index level here older = .ok (follow index level here older) := by
    induction older with
    | nil => exact fun _ _ _ => rfl
    | cons word older ih =>
      intro level here hlevel
      rw [followGuarded, follow, GuardedIndex.extendGuarded_eq index h level here.1 word hlevel,
        ok_bind]
      cases extend index level here.1 word with
      | none => rfl
      | some next => exact ih (level + 1) next (by omega)
  rw [chainGuarded, GuardedIndex.unigramGuarded_eq index h word, ok_bind, chain?,
    hfollow 1 _ (Nat.le_refl 1)]

variable (hpos : 1 ≤ order index) (hmax : order index ≤ maxOrder)
include hpos hmax

/-- The state after a context is found without a fault, and has a place for each of its words. -/
theorem contextStateGuarded_eq (h : Sound index) (context : List WordId) :
    contextStateGuarded index context = .ok (contextState index context) ∧
      (contextState index context).length ≤ stateSlots := by
  obtain ⟨hlimit, hslots⟩ := contextLimitGuarded_eq hpos hmax
  have hlength := Nat.le_trans (length_contextState_le index context) hslots
  refine ⟨?_, hlength⟩
  unfold contextStateGuarded contextState
  unfold contextState at hlength
  rw [hlimit, ok_bind]
  cases htake : context.take (contextLimit index) with
  | nil => rfl
  | cons newest older =>
    rw [htake] at hlength
    dsimp only at hlength ⊢
    rw [GuardedIndex.unigramGuarded_eq index h newest, ok_bind,
      extensionsGuarded_eq h (Nat.le_refl 1), ok_bind, slotsGuarded_eq hlength]

/-- A score is found without a fault, and the state after the word has a place for each of its
words. -/
theorem scoreGuarded_eq (h : Sound index) {state : State} (hstate : state.length ≤ stateSlots)
    (word : WordId) :
    scoreGuarded index state word = .ok (score index state word) ∧
      (score index state word).2.length ≤ stateSlots := by
  obtain ⟨hlimit, hslots⟩ := contextLimitGuarded_eq hpos hmax
  -- The words of the new state are cut to the longest context, which has places.
  have hnext : (score index state word).2.length ≤ stateSlots := by
    unfold score State.length
    dsimp only
    rw [List.length_take]
    omega
  refine ⟨?_, hnext⟩
  -- The walk finds no more words than the state has, so that the backoffs can be cut there.
  have hfound := length_extensions_le index 1 (unigram index word).1 state.words
  rw [State.words, List.length_map] at hfound
  change (extensions index 1 (unigram index word).1 state.words).length ≤ state.length at hfound
  unfold scoreGuarded score
  unfold score at hnext
  rw [hlimit, ok_bind, GuardedIndex.unigramGuarded_eq index h word, ok_bind]
  dsimp only at hnext ⊢
  rw [slotsGuarded_eq hstate, ok_bind, extensionsGuarded_eq h (Nat.le_refl 1), ok_bind,
    slotsGuarded_eq hnext, ok_bind, Guarded.stretch_eq hfound (Nat.le_refl _), ok_bind]

/-- A score after a context is found without a fault. -/
theorem scoreAfterGuarded_eq (h : Sound index) (context : List WordId) (word : WordId) :
    scoreAfterGuarded index context word = .ok (scoreAfter index context word) ∧
      (scoreAfter index context word).2.length ≤ stateSlots := by
  obtain ⟨hcontext, hlength⟩ := contextStateGuarded_eq hpos hmax h context
  rw [scoreAfterGuarded, hcontext, ok_bind]
  exact scoreGuarded_eq hpos hmax h hlength word

end NgramIndex

/-! ## Runs -/

namespace Model

open NgramIndex
open LanguageModel (Start Request)

variable {S : Type} [StoredIndex S] [GuardedIndex S]

/-- The state of a start after some answers. -/
def stateGuarded (m : Model S) (done : List (Score × State)) : Start → Except Fault State
  | .null => .ok .empty
  | .begin => contextStateGuarded m.index [m.vocabulary.beginId]
  | .result call => .ok ((done[call]?.map Prod.snd).getD .empty)

/-- The answer to a call. -/
def answerGuarded (m : Model S) (done : List (Score × State)) :
    Request → Except Fault (Score × State)
  | .inState start word => do scoreGuarded m.index (← m.stateGuarded done start) word
  | .inContext context word => scoreAfterGuarded m.index context word

/-- The answers so far and those of the calls to come. -/
def runGuarded (m : Model S) :
    (done : List (Score × State)) → List Request → Except Fault (List (Score × State))
  | done, [] => .ok done
  | done, request :: requests => do
    let answer ← m.answerGuarded done request
    runGuarded m (done ++ [answer]) requests

/-- What the checks of a model that is read ensure. -/
structure Accepted (m : Model S) : Prop where
  sound : GuardedIndex.Sound m.index
  order_pos : 1 ≤ order m.index
  order_le : order m.index ≤ maxOrder

variable {m : Model S}

/-- The states of a run are found, and have a place for each of their words. -/
theorem Accepted.stateGuarded_eq (h : m.Accepted) {done : List (Score × State)}
    (hdone : ∀ answer ∈ done, answer.2.length ≤ stateSlots) (start : Start) :
    m.stateGuarded done start = .ok (m.toLanguageModel.stateOf done start) ∧
      (m.toLanguageModel.stateOf done start).length ≤ stateSlots := by
  cases start with
  | null => exact ⟨rfl, Nat.zero_le _⟩
  | begin => exact contextStateGuarded_eq h.order_pos h.order_le h.sound [m.vocabulary.beginId]
  | result call =>
    refine ⟨rfl, ?_⟩
    show ((done[call]?.map Prod.snd).getD State.empty).length ≤ stateSlots
    cases hcall : done[call]? with
    | none => exact Nat.zero_le _
    | some answer => exact hdone answer (List.mem_of_getElem? hcall)

/-- A call is answered, and the state after it has a place for each of its words. -/
theorem Accepted.answerGuarded_eq (h : m.Accepted) {done : List (Score × State)}
    (hdone : ∀ answer ∈ done, answer.2.length ≤ stateSlots) (request : Request) :
    m.answerGuarded done request = .ok (m.toLanguageModel.answer done request) ∧
      (m.toLanguageModel.answer done request).2.length ≤ stateSlots := by
  cases request with
  | inState start word =>
    obtain ⟨hstate, hlength⟩ := h.stateGuarded_eq hdone start
    rw [answerGuarded, hstate, ok_bind]
    exact scoreGuarded_eq h.order_pos h.order_le h.sound hlength word
  | inContext context word =>
    exact scoreAfterGuarded_eq h.order_pos h.order_le h.sound context word

/-- From states that have a place for each of their words a run goes well. -/
theorem Accepted.runGuarded_eq (h : m.Accepted) {done : List (Score × State)}
    (hdone : ∀ answer ∈ done, answer.2.length ≤ stateSlots) (requests : List Request) :
    m.runGuarded done requests = .ok (m.toLanguageModel.run done requests) := by
  induction requests generalizing done with
  | nil => rfl
  | cons request requests ih =>
    obtain ⟨hanswer, hlength⟩ := h.answerGuarded_eq hdone request
    rw [runGuarded, hanswer, ok_bind, LanguageModel.run]
    -- The states that were returned before have their places, and the new one has too.
    refine ih fun answer hmem => ?_
    rcases List.mem_append.mp hmem with hold | hnew
    · exact hdone answer hold
    · rw [List.mem_singleton.mp hnew]
      exact hlength

end Model

/-! ## Files -/

namespace Model

variable {S : Type} [StoredIndex S]

/-- A model that is read from a binary file is accepted. -/
theorem accepted_of_ofBinary [GuardedIndex S] {bytes : List UInt8} {m : Model S}
    (h : (BinaryFile.ofBytes bytes >>= ofBinary) = .ok m) : m.Accepted := by
  obtain ⟨file, hfile, h⟩ := bind_eq_ok.mp h
  obtain ⟨hparse, -⟩ := BinaryFile.ofBytes_eq_ok_iff.mp hfile
  obtain ⟨hfits, -⟩ := Header.parse_eq_some_iff.mp hparse
  obtain ⟨-, words, rest, -, hagrees, -⟩ := ofBinary_eq_ok_iff.mp h
  refine ⟨GuardedIndex.sound_of_validate m.index hagrees.validate_eq, ?_, ?_⟩
  · rw [hagrees.order_eq]
    exact hfits.one_le_order
  · rw [hagrees.order_eq]
    exact hfits.order_le

/-! ## An odd file -/

/-- A trie of order 2 over two words, whose pointers hold places for high bits that packing never
writes. -/
def oddTrie : ArrayTrie where
  unigrams := #[.undefined, ⟨⟨0xBF800000⟩, ⟨0xBF000000⟩⟩, ⟨⟨0xC0000000⟩, .zero⟩]
  unigramNext := some ⟨#[0, 0, 1, 2], #[9, 5, 7]⟩
  levels := #[⟨#[2, 1], ⟨#[⟨⟨0xBF000000⟩, .zero⟩, ⟨⟨0xBE800000⟩, .zero⟩]⟩, none⟩]

/-- The model of the trie. -/
def oddModel : Model Kind.arrayTrie.Index := ⟨.ofList [unknownToken, "a", "b"], oddTrie⟩

deriving instance DecidableEq for Trie.Level
deriving instance DecidableEq for Trie

/-- The container of the model is read back. -/
theorem ofBytes_oddModel :
    BinaryFile.ofBytes oddModel.toBytes = .ok ⟨oddModel.header, oddModel.payload⟩ :=
  BinaryFile.ofBytes_encode ⟨rfl, by decide, by decide, rfl⟩ (by decide +kernel) rfl

/-- The model is read back from its file. -/
theorem ofBinary_oddModel : (BinaryFile.ofBytes oddModel.toBytes >>= ofBinary) = .ok oddModel := by
  have hdecode : ((payloadCodec (S := ArrayTrie)).decode oddModel.payload).toOption =
      some ((#[unknownToken, "a", "b"], oddTrie), []) := by
    decide +kernel
  have hagrees : Agrees (S := ArrayTrie) oddModel.header #[unknownToken, "a", "b"] oddTrie :=
    ⟨toOption_eq_some.mp (by decide +kernel), rfl, rfl, rfl, rfl⟩
  rw [ofBytes_oddModel, ok_bind]
  exact ofBinary_eq_ok_iff.mpr ⟨rfl, _, _, toOption_eq_some.mp hdecode, hagrees, rfl⟩

/-! ## Every kind of model -/

/-- Every model of every kind that is read from a binary file can be used: runs of calls and chains
of lookups have no access out of range, no range that ends before it starts and no endless walk. -/
theorem accepted_model_safe (kind : Kind) {bytes : List UInt8} {m : Model kind.Index}
    (h : (BinaryFile.ofBytes bytes >>= ofBinary) = .ok m) :
    GuardedIndex.Sound m.index ∧
      (∀ start, m.stateGuarded [] start = .ok (m.toLanguageModel.stateOf [] start)) ∧
      (∀ requests, m.runGuarded [] requests = .ok (m.toLanguageModel.run [] requests)) ∧
      ∀ word older, NgramIndex.chainGuarded m.index word older =
        .ok (NgramIndex.chain? m.index word older) := by
  have hm := accepted_of_ofBinary h
  exact ⟨hm.sound, fun start => (hm.stateGuarded_eq (by simp) start).1,
    fun requests => hm.runGuarded_eq (by simp) requests,
    fun word older => NgramIndex.chainGuarded_eq hm.sound word older⟩

/-- The model with odd pointers scores known and unknown words. -/
theorem accepted_model_safe_odd :
    (BinaryFile.ofBytes oddModel.toBytes >>= ofBinary) = .ok oddModel ∧
      GuardedIndex.Sound oddModel.index ∧
      oddModel.runGuarded [] [.inContext [1, 2, 1] 2, .inState (.result 0) 7, .inState .begin 1] =
        .ok (oddModel.toLanguageModel.run []
          [.inContext [1, 2, 1] 2, .inState (.result 0) 7, .inState .begin 1]) ∧
      NgramIndex.chainGuarded oddModel.index 2 [1, 7] =
        .ok (NgramIndex.chain? oddModel.index 2 [1, 7]) := by
  obtain ⟨hsound, -, hruns, hchains⟩ := accepted_model_safe .arrayTrie ofBinary_oddModel
  exact ⟨ofBinary_oddModel, hsound, hruns _, hchains 2 [1, 7]⟩

end Model

end BackoffLM

import BackoffLM.Proofs.Arpa.Reading
import BackoffLM.Proofs.Trie.Lookup

/-!
# Incremental scoring is scoring with the complete history

A run of scores carries from word to word only the context that its state holds.
`incremental_eq_full_history` says that nothing is lost by that: where the left context of every
n-gram is stored too (`LeftClosed`), each word of a run of any length gets the score and the state
that it gets after its complete history. The invariant of the run is that the state is the context
state of the history. A step keeps it (`score_contextState`), because the n-grams that end in the
new word and that a state can hold reach back no further than the context that the state before had
kept. For that the left contexts of the n-grams below the highest order are enough
(`ContextClosed`), and up to order 3 these are single words, which are always there.
-/

namespace BackoffLM

/-- The numbers of words are words of 32 bits. -/
def wordBound : Nat := 0x100000000

namespace NgramIndex

variable {S : Type} [NgramIndex S] {index : S} {bound : Nat}

/-- With every n-gram of words below a bound that has at most `n` words before its last, the n-gram
without its last word is stored. -/
def ClosedTo (index : S) (bound n : Nat) : Prop :=
  ∀ (word newest : WordId) (older : List WordId), word < bound → newest < bound →
    (∀ w ∈ older, w < bound) → older.length + 1 ≤ n →
      (chain? index word (newest :: older)).isSome = true →
        (chain? index newest older).isSome = true

/-- A closed index is closed to every length. -/
theorem LeftClosed.closedTo (h : LeftClosed index bound) (n : Nat) : ClosedTo index bound n :=
  fun word newest older hword hnewest holder _ => h word newest older hword hnewest holder

/-- The left context of every n-gram that a state can hold is stored. -/
def ContextClosed (index : S) (bound : Nat) : Prop :=
  ClosedTo index bound (contextLimit index - 1)

/-- Up to order 3 it always is. -/
theorem contextClosed_of_order_le (h : order index ≤ 3) : ContextClosed index bound := by
  intro word newest older _ _ _ hlimit _
  unfold contextLimit at hlimit
  have hnil : older = [] := List.eq_nil_of_length_eq_zero (by omega)
  rw [hnil]
  rfl

/-- As far as an index is closed, the n-grams that end in a new word reach back no further than the
context that is kept. -/
theorem min_length_le_contextState {n : Nat} (hn : n ≤ contextLimit index)
    (hclosed : ClosedTo index bound n) {word : Nat} (hword : word < bound) {history : List WordId}
    (hhistory : ∀ w ∈ history, w < bound) :
    min n (extensions index 1 (unigram index word).1 history).length ≤
      (contextState index history).length := by
  rcases Nat.eq_zero_or_pos (contextLimit index) with h0 | hpos
  · omega
  cases history with
  | nil => simp [extensions]
  | cons newest older =>
    rw [State.length, contextState_cons index newest older hpos, List.length_cons, List.length_map,
      extensions_take, List.length_take]
    by_contra hlt
    -- A chain that the state does not hold would be found without its last word as well.
    have hlong : (extensions index 1 (unigram index newest).1 older).length + 1 + 1 ≤
        (extensions index 1 (unigram index word).1 (newest :: older)).length := by omega
    have hle := length_extensions_le index 1 (unigram index word).1 (newest :: older)
    rw [List.length_cons] at hle
    have hchain := (chain?_take_isSome_iff index word (newest :: older) _ (by
      rw [List.length_cons]; omega)).mpr hlong
    rw [List.take_succ_cons] at hchain
    have hfront := hclosed word newest _ hword (hhistory newest (by simp))
      (fun w hw => hhistory w (List.mem_cons_of_mem newest (List.mem_of_mem_take hw)))
      (by rw [List.length_take]; omega) hchain
    rw [chain?_take_isSome_iff index newest older _ (by omega)] at hfront
    omega

/-- From the state of a history a score leads to the state of the history with the new word. -/
theorem score_contextState (hclosed : ContextClosed index bound) {word : Nat} (hword : word < bound)
    {history : List WordId} (hhistory : ∀ w ∈ history, w < bound) :
    (score index (contextState index history) word).2 = contextState index (word :: history) := by
  have hreach := min_length_le_contextState (Nat.sub_le _ 1) hclosed hword hhistory
  have hnext : (score index (contextState index history) word).2.context =
      (⟨word, (unigram index word).2.backoff⟩ ::
        (extensions index 1 (unigram index word).1 (contextState index history).words).map
          contextWord).take (contextLimit index) := rfl
  rw [words_contextState, extensions_take] at hnext
  rcases Nat.eq_zero_or_pos (contextLimit index) with h0 | hpos
  · -- At order 1 both states are empty.
    have hnil : (word :: history).take (contextLimit index) = [] := by rw [h0, List.take_zero]
    rw [h0, List.take_zero] at hnext
    rw [contextState_of_take_eq_nil index hnil]
    exact congrArg State.mk hnext
  · obtain ⟨n, hn⟩ : ∃ n, contextLimit index = n + 1 := ⟨contextLimit index - 1, by omega⟩
    rw [hn] at hreach
    rw [hn, List.take_succ_cons, ← List.map_take, List.take_take] at hnext
    have hfull := contextState_cons index word history hpos
    rw [hn, Nat.add_sub_cancel, extensions_take] at hfull
    -- The walk over the words of the state ends where the one over the history does, as far as a
    -- state can hold it.
    have hsame : (extensions index 1 (unigram index word).1 history).take
          (min n (contextState index history).length) =
        (extensions index 1 (unigram index word).1 history).take n := by
      rw [List.take_eq_take_iff]
      omega
    rw [hsame, ← hfull] at hnext
    exact congrArg State.mk hnext

end NgramIndex

namespace LanguageModel

/-- The scores of words one after another from a state on, each with the state after its word. -/
def scores (lm : LanguageModel) : State → List WordId → List (Score × State)
  | _, [] => []
  | state, word :: words =>
    let scored := lm.score state word
    scored :: scores lm scored.2 words

end LanguageModel

namespace Model

open NgramIndex

variable {S : Type} [StoredIndex S]

/-- A run from the state of a history gives every word its score after the complete history. -/
theorem getElem?_scores (m : Model S) {bound : Nat} (hclosed : ContextClosed m.index bound)
    (words history : List WordId) (hwords : ∀ w ∈ words, w < bound)
    (hhistory : ∀ w ∈ history, w < bound) (i : Nat) :
    (m.toLanguageModel.scores (contextState m.index history) words)[i]? =
      words[i]?.map (m.toLanguageModel.scoreAfter ((words.take i).reverse ++ history)) := by
  induction words generalizing history i with
  | nil => rfl
  | cons word words ih =>
    have hword := hwords word (by simp)
    rw [LanguageModel.scores]
    cases i with
    | zero => rfl
    | succ i =>
      -- After the first word the state is that of the history with it, and the rest follows.
      have hstate : (m.toLanguageModel.score (contextState m.index history) word).2 =
          contextState m.index (word :: history) := score_contextState hclosed hword hhistory
      have hextended : ∀ w ∈ word :: history, w < bound := by
        intro w hw
        rcases List.mem_cons.mp hw with rfl | hw
        · exact hword
        · exact hhistory w hw
      rw [List.getElem?_cons_succ, List.getElem?_cons_succ, hstate,
        ih _ (fun w hw => hwords w (List.mem_cons_of_mem word hw)) hextended, List.take_succ_cons,
        List.reverse_cons, List.append_assoc, List.singleton_append]

/-- Scoring words one after another, from no context or from the beginning of a sentence, gives each
of them the score and the state that it has after its complete history. -/
theorem incremental_eq_full_history (m : Model S) (hclosed : LeftClosed m.index wordBound)
    (hbegin : m.vocabulary.beginId < wordBound) (words : List WordId)
    (hwords : ∀ w ∈ words, w < wordBound) (i : Nat) (word : WordId) (hi : words[i]? = some word) :
    (m.toLanguageModel.scores m.toLanguageModel.nullState words)[i]? =
        some (m.toLanguageModel.scoreAfter (words.take i).reverse word) ∧
      (m.toLanguageModel.scores m.toLanguageModel.beginState words)[i]? =
        some (m.toLanguageModel.scoreAfter
          ((words.take i).reverse ++ [m.vocabulary.beginId]) word) := by
  have hnull : m.toLanguageModel.nullState = contextState m.index [] :=
    (contextState_of_take_eq_nil m.index List.take_nil).symm
  constructor
  · rw [hnull, getElem?_scores m (hclosed.closedTo _) words [] hwords (by simp) i, hi,
      List.append_nil, Option.map_some]
  · show (m.toLanguageModel.scores (contextState m.index [m.vocabulary.beginId]) words)[i]? = _
    rw [getElem?_scores m (hclosed.closedTo _) words _ hwords (by simpa using hbegin) i, hi,
      Option.map_some]

/-- In a trie of order 4 the last word of `a b a b`, before which the state holds three words. -/
theorem incremental_eq_full_history_sample :
    let m : Model SortedTrie := ofArpa 8 Arpa.sampleArpa
    LeftClosed m.index wordBound ∧ m.vocabulary.beginId < wordBound ∧
      (m.toLanguageModel.scores m.toLanguageModel.nullState [2, 3, 2, 3])[3]? =
        some (m.toLanguageModel.scoreAfter [2, 3, 2] 3) ∧
      (m.toLanguageModel.scores m.toLanguageModel.beginState [2, 3, 2, 3])[3]? =
        some (m.toLanguageModel.scoreAfter [2, 3, 2, m.vocabulary.beginId] 3) := by
  intro m
  have hclosed : LeftClosed m.index wordBound :=
    Trie.leftClosed_ofArpa (Arpa.ofBytes_wellFormed Arpa.ofBytes_sample) (by decide) 8 wordBound
  have hbegin : m.vocabulary.beginId < wordBound := by
    show Arpa.sampleVocabulary.beginId < wordBound
    rw [Arpa.beginId_sample]
    decide
  exact ⟨hclosed, hbegin,
    incremental_eq_full_history m hclosed hbegin [2, 3, 2, 3] (by decide) 3 3 rfl⟩

end Model

end BackoffLM

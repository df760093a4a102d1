import BackoffLM.Proofs.Arpa.Reading
import BackoffLM.Proofs.Probing.Lookup
import BackoffLM.Proofs.Scoring.Runs
import BackoffLM.Proofs.Trie.Lookup

/-!
# Hash tables and tries agree

A score depends on an index through the weights of words and through walks only (`score_congr`,
`contextState_congr`). The walks of both kinds of index are those of their file: in the trie always,
in the hash tables when no two n-grams of the file and among those looked up have one hash. So a
whole run of calls gets the same answers from both (`probing_run_eq_trie_run`). The n-grams without
a suffix in the file make no difference: the tables hold them and the trie does not, but no walk
gets to them.
-/

namespace BackoffLM

namespace NgramIndex

variable {S T : Type} [NgramIndex S] [NgramIndex T] {i : S} {j : T}

/-- Indices with the same word weights and the same walk over a state score alike in it. -/
theorem score_congr {state : State} {word : WordId} (hlimit : contextLimit i = contextLimit j)
    (hword : (unigram i word).2 = (unigram j word).2)
    (hwalk : extensions i 1 (unigram i word).1 state.words =
      extensions j 1 (unigram j word).1 state.words) :
    score i state word = score j state word := by
  unfold score
  dsimp only
  rw [hlimit, hword, hwalk]

/-- Indices with the same weights of the newest word and the same walk from it have the same state
after a context. -/
theorem contextState_congr {context : List WordId} (hlimit : contextLimit i = contextLimit j)
    (hword : ∀ word, (unigram i word).2 = (unigram j word).2)
    (hwalk : ∀ newest older, context.take (contextLimit i) = newest :: older →
      extensions i 1 (unigram i newest).1 older = extensions j 1 (unigram j newest).1 older) :
    contextState i context = contextState j context := by
  unfold contextState
  rw [← hlimit]
  cases htake : context.take (contextLimit i) with
  | nil => rfl
  | cons newest older =>
    dsimp only
    rw [hword newest, hwalk newest older htake]

end NgramIndex

open NgramIndex

namespace Probing

/-- The n-grams that are looked up to score a word in a state. -/
def askedInState (p : Probing) (state : State) (word : WordId) : List (List WordId) :=
  p.asked [(unigramAt p.unigrams word).1] state.words

/-- The n-grams that are looked up for the state after a context. -/
def askedForContext (p : Probing) (context : List WordId) : List (List WordId) :=
  match context.take (contextLimit p) with
  | [] => []
  | newest :: older => p.asked [(unigramAt p.unigrams newest).1] older

/-- The n-grams that a call looks up. -/
def askedBy (m : Model Probing) (done : List (Score × State)) :
    LanguageModel.Request → List (List WordId)
  | .inState start word => m.index.askedInState (m.toLanguageModel.stateOf done start) word
  | .inContext context word =>
    m.index.askedForContext context ++
      m.index.askedInState (contextState m.index context) word

/-- The n-grams that a run looks up. -/
def askedDuring (m : Model Probing) :
    (done : List (Score × State)) → List LanguageModel.Request → List (List WordId)
  | _, [] => []
  | done, request :: requests =>
    askedBy m done request ++
      askedDuring m (done ++ [m.toLanguageModel.answer done request]) requests

end Probing

namespace Agreement

/-- Both indices use as much context. -/
theorem contextLimit_eq (a : Arpa) (bits : Nat) :
    contextLimit (Probing.ofArpa a) = contextLimit (Trie.ofArpa bits a : SortedTrie) := by
  have hprobing : order (Probing.ofArpa a) = a.order := Probing.order_ofArpa a
  have htrie : order (Trie.ofArpa bits a : SortedTrie) = a.order := Trie.order_ofArpa bits a
  rw [contextLimit, contextLimit, hprobing, htrie]

/-- Both indices have the same state at the beginning of a sentence, for which nothing is looked
up. -/
theorem beginState_eq (a : Arpa) (bits : Nat) (word : WordId) :
    contextState (Probing.ofArpa a) [word] =
      contextState (Trie.ofArpa bits a : SortedTrie) [word] := by
  refine contextState_congr (contextLimit_eq a bits) (fun _ => rfl) fun newest older htake => ?_
  -- One word of context leaves nothing to look up after it.
  have holder : older = [] := by
    have hlength := congrArg List.length htake
    rw [List.length_take, List.length_singleton, List.length_cons] at hlength
    exact List.length_eq_zero_iff.mp (by omega)
  rw [holder]
  rfl

variable {a : Arpa} (h : a.WellFormed) (bits : Nat)
include h

/-- From a word both indices walk as the file does. -/
theorem extensions_eq (word : WordId) (older : List WordId)
    (hapart : Probing.Apart (a.entries.map Entry.words ++
      (Probing.ofArpa a).asked [(unigramAt a.unigrams word).1] older)) :
    extensions (Probing.ofArpa a) 1 (unigram (Probing.ofArpa a) word).1 older =
      extensions (Trie.ofArpa bits a : SortedTrie) 1
        (unigram (Trie.ofArpa bits a : SortedTrie) word).1 older := by
  have hnode : (unigram (Probing.ofArpa a) word).1 = a.resolve word :=
    congrArg Prod.fst (a.unigramAt_unigrams word)
  rw [a.unigramAt_unigrams] at hapart
  rw [Trie.extensions_ofArpa h.graded h.unigrams_pos bits, hnode]
  exact Probing.extensions_of_apart h (List.cons_ne_nil (a.resolve word) []) rfl older hapart

/-- Both indices score a word in a state alike. -/
theorem score_eq (state : State) (word : WordId)
    (hapart : Probing.Apart (a.entries.map Entry.words ++
      (Probing.ofArpa a).askedInState state word)) :
    score (Probing.ofArpa a) state word = score (Trie.ofArpa bits a : SortedTrie) state word :=
  score_congr (contextLimit_eq a bits) rfl (extensions_eq h bits word state.words hapart)

/-- Both indices have the same state after a context. -/
theorem contextState_eq (context : List WordId)
    (hapart : Probing.Apart (a.entries.map Entry.words ++
      (Probing.ofArpa a).askedForContext context)) :
    contextState (Probing.ofArpa a) context =
      contextState (Trie.ofArpa bits a : SortedTrie) context := by
  refine contextState_congr (contextLimit_eq a bits) (fun _ => rfl) fun newest older htake => ?_
  rw [Probing.askedForContext, htake] at hapart
  exact extensions_eq h bits newest older hapart

/-- Both models answer a call alike. -/
theorem answer_eq (done : List (Score × State)) (request : LanguageModel.Request)
    (hapart : Probing.Apart (a.entries.map Entry.words ++
      Probing.askedBy (Model.ofArpa bits a) done request)) :
    (Model.ofArpa bits a : Model Probing).toLanguageModel.answer done request =
      (Model.ofArpa bits a : Model SortedTrie).toLanguageModel.answer done request := by
  cases request with
  | inState start word =>
    -- Both score in one state: that of an earlier answer is the same, as the answers are.
    have hstate : (Model.ofArpa bits a : Model Probing).toLanguageModel.stateOf done start =
        (Model.ofArpa bits a : Model SortedTrie).toLanguageModel.stateOf done start := by
      cases start with
      | null => rfl
      | begin => exact beginState_eq a bits a.vocabulary.beginId
      | result call => rfl
    show score (Probing.ofArpa a) _ word = score (Trie.ofArpa bits a : SortedTrie) _ word
    rw [← hstate]
    exact score_eq h bits _ word hapart
  | inContext context word =>
    -- The context leads to the same state first, and what is left is a score in it.
    have hcontext := contextState_eq h bits context hapart.of_append_left
    show score (Probing.ofArpa a) (contextState (Probing.ofArpa a) context) word =
      score (Trie.ofArpa bits a : SortedTrie)
        (contextState (Trie.ofArpa bits a : SortedTrie) context) word
    rw [← hcontext]
    exact score_eq h bits _ word hapart.of_append_right

/-- From the same answers so far both models answer a run alike. -/
theorem run_eq (done : List (Score × State)) (requests : List LanguageModel.Request)
    (hapart : Probing.Apart (a.entries.map Entry.words ++
      Probing.askedDuring (Model.ofArpa bits a) done requests)) :
    (Model.ofArpa bits a : Model Probing).toLanguageModel.run done requests =
      (Model.ofArpa bits a : Model SortedTrie).toLanguageModel.run done requests := by
  induction requests generalizing done with
  | nil => rfl
  | cons request requests ih =>
    have hanswer := answer_eq h bits done request hapart.of_append_left
    rw [LanguageModel.run, LanguageModel.run, ← hanswer]
    exact ih _ hapart.of_append_right

end Agreement

namespace Model

/-- A run of calls gets the same answers from the hash tables and from the trie of a file, when no
two n-grams of the file and among those that the run looks up have one length and one hash. -/
theorem probing_run_eq_trie_run {bytes : List UInt8} {atMost : Option Nat} {a : Arpa}
    (h : Arpa.ofBytes bytes atMost = .ok a) (bits : Nat) (requests : List LanguageModel.Request)
    (hapart : Probing.Apart (a.entries.map Entry.words ++
      Probing.askedDuring (ofArpa bits a) [] requests)) :
    (ofArpa bits a : Model Probing).toLanguageModel.run [] requests =
      (ofArpa bits a : Model SortedTrie).toLanguageModel.run [] requests :=
  Agreement.run_eq (Arpa.ofBytes_wellFormed h) bits [] requests hapart

/-- A run of five calls over a file of order 4, with n-grams that are found and others that are
not. -/
theorem probing_run_eq_trie_run_sample :
    let requests : List LanguageModel.Request := [.inContext [1] 2, .inState (.result 0) 3,
      .inState (.result 1) 2, .inContext [2, 3, 2, 1] 3, .inState .null 9]
    Arpa.ofBytes Arpa.sample none = .ok Arpa.sampleArpa ∧
      Probing.Apart (Arpa.sampleArpa.entries.map Entry.words ++
        Probing.askedDuring (ofArpa 8 Arpa.sampleArpa) [] requests) ∧
      (ofArpa 8 Arpa.sampleArpa : Model Probing).toLanguageModel.run [] requests =
        (ofArpa 8 Arpa.sampleArpa : Model SortedTrie).toLanguageModel.run [] requests := by
  intro requests
  have hapart : Probing.Apart (Arpa.sampleArpa.entries.map Entry.words ++
      Probing.askedDuring (ofArpa 8 Arpa.sampleArpa) [] requests) := by
    decide +kernel
  exact ⟨Arpa.ofBytes_sample, hapart,
    probing_run_eq_trie_run Arpa.ofBytes_sample 8 requests hapart⟩

end Model

end BackoffLM

import BackoffLM.Proofs.Arpa.Reading
import BackoffLM.Proofs.Scoring.Alike
import BackoffLM.Proofs.Trie.Lookup

/-!
# Quantization loses nothing on small levels

When the n-grams of each order have finite weights that the codes of a width tell apart
(`Arpa.Small`), so have those that a trie keeps of them (`LevelOf.small`). The quantized trie then
finds the same nodes as the plain one, with weights that are equal as numbers
(`alikeLookups_ofArpa`), and answers every run of calls with equal scores, lengths and words
(`Model.quantized_run_lossless`).
-/

namespace BackoffLM

/-- Finite weights, and of each order from 2 on no more n-grams than codes of a width, and one fewer
with a backoff. -/
structure Arpa.Small (bits : Nat) (a : Arpa) : Prop where
  unigrams : ∀ w ∈ a.unigrams, w.prob.isFinite = true ∧ w.backoff.isFinite = true
  sections : ∀ s ∈ a.ngrams, Weights.Small bits (s.toList.map Entry.weights)

instance (bits : Nat) (a : Arpa) : Decidable (a.Small bits) :=
  decidable_of_iff ((∀ w ∈ a.unigrams, w.prob.isFinite = true ∧ w.backoff.isFinite = true) ∧
      ∀ s ∈ a.ngrams, Weights.Small bits (s.toList.map Entry.weights))
    ⟨fun h => ⟨h.1, h.2⟩, fun h => ⟨h.unigrams, h.sections⟩⟩

/-- The weights that a word is looked up with are finite, also for a word that has none. -/
theorem Arpa.Small.isFinite_unigramAt {bits : Nat} {a : Arpa} (ha : a.Small bits)
    (word : WordId) :
    (unigramAt a.unigrams word).2.prob.isFinite = true ∧
      (unigramAt a.unigrams word).2.backoff.isFinite = true := by
  unfold unigramAt
  cases hword : a.unigrams[word]? with
  | some w => exact ha.unigrams w (Array.mem_of_getElem? hword)
  | none =>
    dsimp only
    rw [Array.getD_eq_getD_getElem?]
    cases hunknown : a.unigrams[unknownId]? with
    | some w => exact ha.unigrams w (Array.mem_of_getElem? hunknown)
    | none => exact ⟨rfl, rfl⟩

namespace Trie

/-- The weights that a level keeps are among those of its section. -/
theorem subperm_sortLevel (n : Nat) (parents : List Key) (level : Array Entry) :
    ((sortLevel n parents level).map Keyed.weights).Subperm (level.toList.map Entry.weights) := by
  have hperm := (List.mergeSort_perm (level.toList.map fun e =>
    (⟨e.words.reverse, e.weights⟩ : Keyed)) Keyed.mayPrecede).map Keyed.weights
  rw [List.map_map] at hperm
  exact ((List.filter_sublist.trans (eraseRepsBy_sublist Keyed.sameKey _)).map
    Keyed.weights).subperm.trans hperm.subperm

variable {a : Arpa} {bits : Nat}

/-- The weights of a level are small. -/
theorem LevelOf.small {k : Nat} {above : List Key} {kept : List Keyed} (h : LevelOf a k above kept)
    (ha : a.Small bits) : Weights.Small bits (kept.map Keyed.weights) := by
  obtain ⟨s, hs, rfl⟩ := h.exists_section
  have hsection := ha.sections s (List.mem_of_getElem? hs)
  have hsub := subperm_sortLevel (k + 2) above s
  exact ⟨fun w hw => hsection.finite w (hsub.subset hw),
    hsub.length_le.trans hsection.length_le, (hsub.countP_le _).trans hsection.backoffs_le⟩

section

variable {P V W : Type} [PointerArray P] [WeightStore V] [WeightStore W]

/-- The children of a node do not depend on how weights are stored. -/
theorem children?_values {k : Nat} {above : List Key} {kept : List Keyed}
    (h : LevelOf a k above kept) (bits : Nat) (node : Node) :
    (ofArpa bits a : Trie P V).children? (k + 1) node =
      (ofArpa bits a : Trie P W).children? (k + 1) node := by
  unfold children?
  rw [h.pointers_eq bits, h.pointers_eq bits]

/-- A node is extended alike with quantized and with plain weights. -/
theorem LevelOf.extend_alike {k : Nat} {above : List Key} {kept : List Keyed}
    (h : LevelOf a k above kept) (ha : a.Small bits) (hbits : bits ≤ 8) (node : Node)
    (word : WordId) :
    Option.Rel Weights.Alike ((ofArpa bits a : Trie P QuantValues).extend (k + 1) node word)
      ((ofArpa bits a : Trie P FloatValues).extend (k + 1) node word) := by
  unfold extend
  rw [children?_values (V := QuantValues) (W := FloatValues) h bits node,
    Nat.add_sub_cancel, h.level_eq bits, h.level_eq bits]
  cases (ofArpa bits a : Trie P FloatValues).children? (k + 1) node with
  | none => exact .none
  | some range =>
    dsimp only [storedLevel]
    cases hfind : Bisect.find? ((kept.map fun e => e.key.getD (k + 2 - 1) unknownId).toArray) word
        range.1 range.2 with
    | none => exact .none
    | some place =>
      -- The place is one of the level's, so both stores hold the same weights there.
      have hplace : place < (kept.map Keyed.weights).length := by
        have hword := (Bisect.find?_sound hfind).2.2
        rw [List.getElem?_toArray] at hword
        simpa using (List.getElem?_eq_some_iff.mp hword).1
      refine .some ⟨rfl, ?_⟩
      dsimp only
      rw [get_ofWeights bits _ _ place hplace]
      exact QuantValues.get_ofWeights hbits (h.small ha) _ hplace

/-- The tries of a small file with quantized and with plain weights have alike lookups. -/
theorem alikeLookups_ofArpa (ha : a.Small bits) (hbits : bits ≤ 8) :
    AlikeLookups (ofArpa bits a : Trie P QuantValues) (ofArpa bits a : Trie P FloatValues) where
  order_eq := by
    show (ofArpa bits a : Trie P QuantValues).order = (ofArpa bits a : Trie P FloatValues).order
    rw [order_ofArpa, order_ofArpa]
  unigram_alike word :=
    have hfinite := ha.isFinite_unigramAt word
    ⟨rfl, .refl hfinite.1, .refl hfinite.2⟩
  extend_alike level node word := by
    show Option.Rel Weights.Alike ((ofArpa bits a : Trie P QuantValues).extend level node word)
      ((ofArpa bits a : Trie P FloatValues).extend level node word)
    cases level with
    | zero => exact .none
    | succ k =>
      by_cases hk : k < a.ngrams.length
      · obtain ⟨above, kept, h⟩ := exists_levelOf_of_lt hk
        exact h.extend_alike ha hbits node word
      · rw [extend_of_length_le bits (by omega), extend_of_length_le bits (by omega)]
        exact .none

end

end Trie

namespace Model

/-- Quantization loses nothing on small levels. Where all weights of a file are finite, and each
order from 2 on has no more n-grams than there are codes and one fewer with a backoff that is not
zero, the quantized trie and the trie with plain weights answer every run of scoring calls with log
probabilities that are equal as numbers, with n-grams of one length, and with states of the same
words. -/
theorem quantized_run_lossless {bits : Nat} (hbits : bits ≤ 8) {a : Arpa} (ha : a.Small bits)
    (requests : List LanguageModel.Request) :
    List.Forall₂ (fun x y => x.1.logProb.numEq y.1.logProb = true ∧ x.1.length = y.1.length ∧
        x.2.words = y.2.words)
      ((ofArpa bits a : Model QuantTrie).toLanguageModel.run [] requests)
      ((ofArpa bits a : Model SortedTrie).toLanguageModel.run [] requests) := by
  have hlookups : AlikeLookups (ofArpa bits a : Model QuantTrie).index
      (ofArpa bits a : Model SortedTrie).index := Trie.alikeLookups_ofArpa ha hbits
  exact (hlookups.run_alike rfl .nil requests).imp fun x y h =>
    ⟨h.logProb_eq, h.length_eq, h.state.words_eq⟩

/-- The small file of order 4 with codes of two bits, all three of which backoffs of bigrams use. -/
theorem quantized_run_lossless_sample :
    let requests : List LanguageModel.Request := [.inContext [1] 2, .inState (.result 0) 3,
      .inState (.result 1) 2, .inContext [2, 3, 2, 1] 3, .inState .null 9]
    Arpa.ofBytes Arpa.sample none = .ok Arpa.sampleArpa ∧ 2 ≤ 8 ∧ Arpa.sampleArpa.Small 2 ∧
      List.Forall₂ (fun x y => x.1.logProb.numEq y.1.logProb = true ∧ x.1.length = y.1.length ∧
          x.2.words = y.2.words)
        ((ofArpa 2 Arpa.sampleArpa : Model QuantTrie).toLanguageModel.run [] requests)
        ((ofArpa 2 Arpa.sampleArpa : Model SortedTrie).toLanguageModel.run [] requests) := by
  intro requests
  have hsmall : Arpa.sampleArpa.Small 2 := by decide +kernel
  exact ⟨Arpa.ofBytes_sample, by decide, hsmall,
    quantized_run_lossless (by decide) hsmall requests⟩

end Model

end BackoffLM

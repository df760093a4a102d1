import BackoffLM.Proofs.Scoring.Lookups

/-!
# Packed pointers change no answer

The tries of a file with one kind of weights and two kinds of pointers hold the same levels: the
same words and the same weights, and pointers that were made from the same offsets
(`LevelOf.level_eq`, `LevelOf.pointers_eq`). The offsets between two levels never decrease
(`LevelOf.offsets_sorted`), whatever the sections of the file hold, repeated n-grams, n-grams
without a parent and numbers of no word included, as both levels were sorted first. So lawful
pointers of either kind give back the same offsets, the children of every node are the same
(`children?_congr`), and with them every lookup (`sameLookups_ofArpa`) and every run of calls.
-/

namespace BackoffLM.Trie

open NgramIndex

variable {P Q V : Type} [PointerArray P] [PointerArray Q] [WeightStore V] {a : Arpa}

/-- The offsets between two levels never decrease. -/
theorem LevelOf.offsets_sorted {k : Nat} {above : List Key} {kept : List Keyed}
    (h : LevelOf a k above kept) (hg : a.Graded) :
    (childOffsets above (kept.map Keyed.key) 0).Pairwise (· ≤ ·) := by
  obtain ⟨hsorted, hlength⟩ := above_spec hg h.above_eq
  exact childOffsets_sorted hsorted hlength h.keys_sorted 0

/-- The levels of a trie have as many n-grams as were kept. -/
theorem counts_ofArpa (bits : Nat) (a : Arpa) :
    (ofArpa bits a : Trie P V).counts = a.unigrams.size :: (keptLevels a).map List.length := by
  have hlevels : (ofArpa bits a : Trie P V).levels.toList =
      storeLevels bits a.order 2 (keptLevels a) (fileOffsets a).tail := by
    show ((storeLevels bits a.order 2 (keptLevels a) (fileOffsets a).tail).toArray).toList = _
    exact List.toList_toArray
  have hsizes : (ofArpa bits a : Trie P V).levels.toList.map (fun level => level.words.size) =
      (keptLevels a).map List.length := by
    apply List.ext_getElem?
    intro k
    rw [hlevels, List.getElem?_map, getElem?_storeLevels, List.getElem?_map, Option.map_map]
    congr 1
    funext kept
    show ((kept.map _).toArray).size = kept.length
    rw [List.size_toArray, List.length_map]
  rw [counts, hsizes]
  rfl

variable [LawfulPointers P] [LawfulPointers Q]

/-- A node has the same children under both kinds of pointers. -/
theorem children?_congr (hg : a.Graded) (bits : Nat) {k : Nat} {above : List Key}
    {kept : List Keyed} (h : LevelOf a k above kept) (node : Node) :
    (ofArpa bits a : Trie P V).children? (k + 1) node =
      (ofArpa bits a : Trie Q V).children? (k + 1) node := by
  have hsorted := h.offsets_sorted hg
  unfold children?
  rw [h.pointers_eq bits, h.pointers_eq bits]
  dsimp only
  rw [LawfulPointers.size_ofOffsets, LawfulPointers.size_ofOffsets]
  split
  · -- Both pointers of the node are in range, where they give back the offsets.
    rename_i hnext
    have hnode := Nat.lt_of_succ_lt hnext
    rw [LawfulPointers.get_ofOffsets _ hsorted node hnode,
      LawfulPointers.get_ofOffsets _ hsorted (node + 1) hnext,
      LawfulPointers.get_ofOffsets _ hsorted node hnode,
      LawfulPointers.get_ofOffsets _ hsorted (node + 1) hnext]
  · rfl

/-- Both tries of a file give the same nodes and weights for every lookup. -/
theorem sameLookups_ofArpa (hg : a.Graded) (bits : Nat) :
    SameLookups (ofArpa bits a : Trie P V) (ofArpa bits a : Trie Q V) where
  order_eq := by
    show (ofArpa bits a : Trie P V).order = (ofArpa bits a : Trie Q V).order
    rw [order_ofArpa, order_ofArpa]
  unigram_eq _ := rfl
  extend_eq level node word := by
    show (ofArpa bits a : Trie P V).extend level node word =
      (ofArpa bits a : Trie Q V).extend level node word
    cases level with
    | zero => rfl
    | succ k =>
      by_cases hk : k < a.ngrams.length
      · obtain ⟨above, kept, h⟩ := exists_levelOf_of_lt hk
        unfold extend
        rw [children?_congr (P := P) (Q := Q) hg bits h node, Nat.add_sub_cancel, h.level_eq bits,
          h.level_eq bits]
        -- The words and the weights of a level are stored without its pointers.
        cases (ofArpa bits a : Trie Q V).children? (k + 1) node with
        | none => rfl
        | some range => rfl
      · have hle : a.ngrams.length ≤ k := by omega
        rw [extend_of_length_le bits hle, extend_of_length_le bits hle]

end BackoffLM.Trie

namespace BackoffLM.Model

open NgramIndex

/-- Packing the pointers of a trie changes none of its answers, for plain and for quantized weights
alike: the tries of one file with plain and with packed pointers have as many n-grams of each order,
give the same nodes and weights for every word and every chain of extensions, and answer every run
of calls with the same scores and states. -/
theorem packed_pointers_invisible {V : Type} [WeightStore V] (bits : Nat) {a : Arpa}
    (hg : a.Graded) :
    let plain : Model (Trie PlainPointers V) := ofArpa bits a
    let packed : Model (Trie PackedPointers V) := ofArpa bits a
    StoredIndex.counts plain.index = StoredIndex.counts packed.index ∧
      (∀ word, unigram plain.index word = unigram packed.index word) ∧
      (∀ level node word,
        extend plain.index level node word = extend packed.index level node word) ∧
      (∀ word older, chain? plain.index word older = chain? packed.index word older) ∧
      ∀ requests,
        plain.toLanguageModel.run [] requests = packed.toLanguageModel.run [] requests := by
  intro plain packed
  have hsame : SameLookups plain.index packed.index := Trie.sameLookups_ofArpa hg bits
  have hcounts : StoredIndex.counts plain.index = StoredIndex.counts packed.index := by
    show (Trie.ofArpa bits a : Trie PlainPointers V).counts =
      (Trie.ofArpa bits a : Trie PackedPointers V).counts
    rw [Trie.counts_ofArpa, Trie.counts_ofArpa]
  exact ⟨hcounts, hsame.unigram_eq, hsame.extend_eq, hsame.chain?_eq,
    fun requests => hsame.run_eq rfl [] requests⟩

/-- Sections with an n-gram given twice, one of a word that has no number, and one without a
parent. -/
def roughArpa : Arpa where
  vocabulary := .ofList [unknownToken, "a", "b"]
  hasUnknown := false
  unigrams := #[.undefined, ⟨⟨0xBF800000⟩, ⟨0xBE800000⟩⟩, ⟨⟨0xC0000000⟩, ⟨0xBE800000⟩⟩]
  ngrams := [
    #[⟨[2, 1], ⟨0xBF000000⟩, ⟨0xBE000000⟩⟩, ⟨[1, 2], ⟨0xBF400000⟩, ⟨0xBF800000⟩⟩,
      ⟨[2, 1], ⟨0xBE000000⟩, ⟨0xBF000000⟩⟩, ⟨[9, 1], ⟨0xBF800000⟩, ⟨0xC0000000⟩⟩],
    #[⟨[2, 2, 2], ⟨0xBE800000⟩, .zero⟩, ⟨[1, 9, 1], ⟨0xBF000000⟩, .zero⟩]]

/-- With quantized weights the two tries of such a file give the same answers. -/
theorem packed_pointers_invisible_rough :
    let plain : Model QuantTrie := ofArpa 8 roughArpa
    let packed : Model QuantArrayTrie := ofArpa 8 roughArpa
    roughArpa.Graded ∧ StoredIndex.counts plain.index = StoredIndex.counts packed.index ∧
      chain? plain.index 1 [9, 1] = chain? packed.index 1 [9, 1] ∧
      plain.toLanguageModel.run [] [.inContext [9, 1] 1, .inState (.result 0) 2] =
        packed.toLanguageModel.run [] [.inContext [9, 1] 1, .inState (.result 0) 2] := by
  have hg : roughArpa.Graded := by decide
  obtain ⟨hcounts, -, -, hchains, hruns⟩ := packed_pointers_invisible (V := QuantValues) 8 hg
  exact ⟨hg, hcounts, hchains 1 [9, 1], hruns _⟩

end BackoffLM.Model

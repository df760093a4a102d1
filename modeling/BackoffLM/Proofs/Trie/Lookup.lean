import BackoffLM.Proofs.Arpa.Closure
import BackoffLM.Proofs.Scoring.Walk
import BackoffLM.Proofs.Trie.Levels

/-!
# A trie finds the n-grams of its file

A node of level `n` stands for the key at its place in level `n` (`Stands`). `extend_ofArpa` is one
step of the search for any pointers and weights: bisection between the pointers of a node gives the
place of its key with the new word at the end, if the next level has it. With plain weights the step
answers as the file does (`extend_spec`), and `extensions_ofArpa` follows by induction: the walk
from a word is `Arpa.found`. An n-gram that was left out for want of a parent is never asked for, as
the walk ends at the missing parent. So the trie of a closed file is `LeftClosed`
(`leftClosed_ofArpa`).
-/

namespace BackoffLM.Trie

open Keyed (hasKey)

/-- A node of a level stands for an n-gram in reading order. -/
def Stands (a : Arpa) (level : Nat) (node : Node) (ngram : List WordId) : Prop :=
  ∃ above, 1 ≤ level ∧ (keyLevels a)[level - 1]? = some above ∧ above[node]? = some ngram.reverse

/-- The node of a word stands for it. -/
theorem stands_word {a : Arpa} {word : Nat} (h : word < a.unigrams.size) :
    Stands a 1 word [word] := by
  refine ⟨_, Nat.le_refl 1, rfl, ?_⟩
  simp [unigramKeys, h]

/-- An n-gram that a node of a level stands for has the length of the level. -/
theorem Stands.length_eq {a : Arpa} (hg : a.Graded) {level : Nat} {node : Node}
    {ngram : List WordId} (h : Stands a level node ngram) : ngram.length = level := by
  obtain ⟨above, hlevel, habove, hnode⟩ := h
  have hlen := (above_spec hg habove).2 _ (List.mem_of_getElem? hnode)
  rw [List.length_reverse] at hlen
  omega

section Step

variable {P V : Type} [PointerArray P] [LawfulPointers P] [WeightStore V]
variable {a : Arpa} {k : Nat} {above : List Key} {kept : List Keyed}

/-- A key of one length more is its prefix and its last word. -/
theorem eq_take_append_getD {key : Key} {n : Nat} (h : key.length = n + 1) :
    key = key.take n ++ [key.getD n unknownId] := by
  conv_lhs => rw [← List.take_append_drop n key]
  rw [List.drop_eq_getElem_cons (by omega), List.drop_eq_nil_of_le (by omega)]
  simp [List.getD_eq_getElem?_getD, h]

/-- A key has a prefix of one word less when it is that prefix and its last word. -/
theorem take_eq_iff {key longer : Key} {n : Nat} (hkey : key.length = n)
    (hlonger : longer.length = n + 1) :
    longer.take n = key ↔ longer = key ++ [longer.getD n unknownId] := by
  constructor
  · intro htake
    conv_lhs => rw [eq_take_append_getD hlonger, htake]
  · intro heq
    rw [heq, ← hkey, List.take_left]

/-- The children of a node stand between its offset and the next one. -/
theorem children?_ofArpa (h : LevelOf a k above kept) (hg : a.Graded) (bits : Nat)
    {node start stop : Nat}
    (hstart : (childOffsets above (kept.map Keyed.key) 0)[node]? = some start)
    (hstop : (childOffsets above (kept.map Keyed.key) 0)[node + 1]? = some stop) :
    (ofArpa bits a : Trie P V).children? (k + 1) node = some (start, stop) := by
  obtain ⟨hsorted, hlen⟩ := above_spec hg h.above_eq
  have hoffsets := childOffsets_sorted hsorted hlen h.keys_sorted 0
  obtain ⟨hnode, hstart⟩ := List.getElem?_eq_some_iff.mp hstart
  obtain ⟨hnext, hstop⟩ := List.getElem?_eq_some_iff.mp hstop
  unfold children?
  rw [h.pointers_eq bits]
  dsimp only
  rw [LawfulPointers.size_ofOffsets, if_pos hnext,
    LawfulPointers.get_ofOffsets _ hoffsets node hnode,
    LawfulPointers.get_ofOffsets _ hoffsets (node + 1) hnext, hstart, hstop]

/-- The children of a node are those whose key is the node's and one more word. -/
theorem exists_children (h : LevelOf a k above kept) (hg : a.Graded) (bits : Nat) {node : Nat}
    {key : Key} (hnode : above[node]? = some key) :
    ∃ start stop, (ofArpa bits a : Trie P V).children? (k + 1) node = some (start, stop) ∧
      stop ≤ kept.length ∧ ∀ c (hc : c < kept.length), (start ≤ c ∧ c < stop) ↔
        kept[c].key = key ++ [kept[c].key.getD (k + 1) unknownId] := by
  obtain ⟨hlt, hkey⟩ := List.getElem?_eq_some_iff.mp hnode
  obtain ⟨hsorted, hlen⟩ := above_spec hg h.above_eq
  have hkeys := h.keys_sorted
  have hlength : key.length = k + 1 := hlen key (List.mem_of_getElem? hnode)
  have hcount := length_childOffsets above (kept.map Keyed.key) 0
  have hstart := List.getElem?_eq_getElem
    (show node < (childOffsets above (kept.map Keyed.key) 0).length by omega)
  have hstop := List.getElem?_eq_getElem
    (show node + 1 < (childOffsets above (kept.map Keyed.key) 0).length by omega)
  refine ⟨_, _, children?_ofArpa h hg bits hstart hstop, ?_, fun c hc => ?_⟩
  · have hle := le_of_mem_childOffsets hsorted hlen hkeys (List.mem_of_getElem? hstop)
    rw [List.length_map] at hle
    exact hle
  · have hcut : ∀ p ∈ kept.map Keyed.key, p.take (k + 1) ∈ above := by
      intro p hp
      obtain ⟨e, he, rfl⟩ := List.mem_map.mp hp
      exact h.take_mem e he
    rw [mem_children_iff hsorted hlen hkeys hcut node hlt hstart hstop c (by simpa using hc),
      hkey, List.getElem_map, take_eq_iff hlength (h.length_key hg _ (List.getElem_mem hc))]

/-- Where keys increase, a key is found exactly at its place. -/
theorem findIdx?_hasKey_eq_some_iff (hkeys : (kept.map Keyed.key).Pairwise (· < ·)) {key : Key}
    {place : Nat} :
    kept.findIdx? (hasKey key) = some place ↔
      ∃ hp : place < kept.length, kept[place].key = key := by
  rw [List.findIdx?_eq_some_iff_getElem]
  constructor
  · rintro ⟨hp, hhas, -⟩
    exact ⟨hp, by simpa [hasKey] using hhas⟩
  · rintro ⟨hp, hkey⟩
    refine ⟨hp, by simpa [hasKey] using hkey, fun j hj hhas => ?_⟩
    -- An earlier key is less, so it is another one.
    have hordered := List.pairwise_iff_getElem.mp hkeys j place (by simp; omega) (by simp; omega) hj
    have hsame : kept[j].key = key := by simpa [hasKey] using hhas
    rw [List.getElem_map, List.getElem_map, hsame, hkey] at hordered
    exact lt_irrefl _ hordered

/-- Bisection over the last words of a node's children finds the place of the node's key with a word
at its end. -/
theorem find?_children (h : LevelOf a k above kept) {key : Key} (hlength : key.length = k + 1)
    {start stop : Nat} (hend : stop ≤ kept.length)
    (hchild : ∀ c (hc : c < kept.length), (start ≤ c ∧ c < stop) ↔
      kept[c].key = key ++ [kept[c].key.getD (k + 1) unknownId]) (word : WordId) :
    Bisect.find? ((kept.map fun e => e.key.getD (k + 1) unknownId).toArray) word start stop =
      kept.findIdx? (hasKey (key ++ [word])) := by
  have hkeys := h.keys_sorted
  -- The last words increase between the pointers, as the keys do.
  have hinc : Bisect.Increasing
      ((kept.map fun e => e.key.getD (k + 1) unknownId).toArray) start stop := by
    intro i j hi hij hj
    have hordered := List.pairwise_iff_getElem.mp hkeys i j (by simp; omega) (by simp; omega) hij
    rw [List.getElem_map, List.getElem_map, (hchild i (by omega)).mp ⟨hi, by omega⟩,
      (hchild j (by omega)).mp ⟨by omega, hj⟩, append_singleton_lt_iff] at hordered
    have hi' : i < kept.length := by omega
    have hj' : j < kept.length := by omega
    simpa [Array.getD_eq_getD_getElem?, hi', hj'] using hordered
  ext place
  rw [Bisect.find?_eq_some_iff hinc, findIdx?_hasKey_eq_some_iff hkeys]
  constructor
  · rintro ⟨hlow, hhigh, hword⟩
    have hp : place < kept.length := by omega
    have hlast : kept[place].key.getD (k + 1) unknownId = word := by simpa [hp] using hword
    have hfull := (hchild place hp).mp ⟨hlow, hhigh⟩
    rw [hlast] at hfull
    exact ⟨hp, hfull⟩
  · rintro ⟨hp, hfull⟩
    have hlast : kept[place].key.getD (k + 1) unknownId = word := by
      rw [hfull, ← hlength]
      simp
    obtain ⟨hlow, hhigh⟩ := (hchild place hp).mpr (by rw [hlast, hfull])
    refine ⟨hlow, hhigh, ?_⟩
    rw [List.getElem?_toArray, List.getElem?_map, List.getElem?_eq_getElem hp, Option.map_some,
      hlast]

/-- One step of the search finds the place of the node's key with the new word at its end. -/
theorem extend_ofArpa (h : LevelOf a k above kept) (hg : a.Graded) (bits : Nat) {node : Nat}
    {key : Key} (hnode : above[node]? = some key) (word : WordId) :
    (ofArpa bits a : Trie P V).extend (k + 1) node word =
      (kept.findIdx? (hasKey (key ++ [word]))).map fun place =>
        (place, WeightStore.get
          (WeightStore.ofWeights bits (kept.map Keyed.weights) (k + 2 < a.order) : V) place) := by
  have hlength : key.length = k + 1 := (above_spec hg h.above_eq).2 _ (List.mem_of_getElem? hnode)
  obtain ⟨start, stop, hchildren, hend, hchild⟩ := exists_children (P := P) (V := V) h hg bits hnode
  unfold extend
  rw [hchildren, Nat.add_sub_cancel, h.level_eq bits]
  dsimp only [storedLevel]
  rw [show k + 2 - 1 = k + 1 by omega, find?_children h hlength hend hchild word]

omit [LawfulPointers P] in
/-- Below the last level nothing is found. -/
theorem extend_of_length_le (bits : Nat) (hk : a.ngrams.length ≤ k) (node : Node) (word : WordId) :
    (ofArpa bits a : Trie P V).extend (k + 1) node word = none := by
  have hlevels : (ofArpa bits a : Trie P V).levels[k]? = none := by
    rw [Array.getElem?_eq_none_iff, size_levels_ofArpa]
    exact hk
  unfold extend
  rw [Nat.add_sub_cancel, hlevels]
  cases (ofArpa bits a : Trie P V).children? (k + 1) node <;> rfl

end Step

/-! ## Plain weights -/

section Plain

variable {P : Type} [PointerArray P] [LawfulPointers P] {a : Arpa}

/-- Plain weights are given back, without the backoff where there is none. -/
theorem get_ofWeights (bits : Nat) (weights : List Weights) (hasBackoff : Bool) (i : Nat)
    (hi : i < weights.length) :
    WeightStore.get (WeightStore.ofWeights bits weights hasBackoff : FloatValues) i =
      weights[i].keepBackoff hasBackoff := by
  show ((weights.map (Weights.keepBackoff hasBackoff)).toArray).getD i default = _
  simp [Array.getD_eq_getD_getElem?, hi]

/-- One step of the search answers as the file does, and leads to a node for the longer n-gram. -/
theorem extend_spec (hg : a.Graded) (bits : Nat) {level : Nat} {node : Node} {ngram : List WordId}
    (hs : Stands a level node ngram) (word : WordId) :
    ((ofArpa bits a : Trie P FloatValues).extend level node word).map Prod.snd =
        a.kept? (word :: ngram) ∧
      ∀ found, (ofArpa bits a : Trie P FloatValues).extend level node word = some found →
        Stands a (level + 1) found.1 (word :: ngram) := by
  have hlength := hs.length_eq hg
  obtain ⟨above, hlevel, habove, hnode⟩ := hs
  obtain ⟨k, rfl⟩ : ∃ k, level = k + 1 := ⟨level - 1, by omega⟩
  rw [Nat.add_sub_cancel] at habove
  have hlen : (word :: ngram).length = k + 2 := by rw [List.length_cons, hlength]
  by_cases hk : k < a.ngrams.length
  · obtain ⟨kept, h⟩ := exists_levelOf habove hk
    rw [Arpa.kept?, h.weights?_eq hg hlength (List.mem_of_getElem? hnode) word, hlen,
      extend_ofArpa h hg bits hnode word, List.find?_eq_bind_findIdx?_getElem?]
    cases hplace : kept.findIdx? (hasKey (ngram.reverse ++ [word])) with
    | none => exact ⟨rfl, fun found hfound => by simp at hfound⟩
    | some place =>
      obtain ⟨hp, hkey⟩ := (findIdx?_hasKey_eq_some_iff h.keys_sorted).mp hplace
      refine ⟨?_, fun found hfound => ?_⟩
      · rw [Option.bind_some, List.getElem?_eq_getElem hp, Option.map_some,
          get_ofWeights _ _ _ _ (by simpa using hp), Option.map_some, Option.map_some,
          Option.map_some, List.getElem_map]
      · rw [Option.map_some, Option.some.injEq] at hfound
        rw [← hfound]
        refine ⟨_, by omega, h.keys_eq, ?_⟩
        rw [List.getElem?_map, List.getElem?_eq_getElem hp, Option.map_some, hkey,
          List.reverse_cons]
  · -- Below the last level there is nothing, in the trie and in the file.
    have hmissing : a.kept? (word :: ngram) = none := by
      rw [Arpa.kept?, Arpa.weights?_eq_section hg hlen, List.getElem?_eq_none (by omega)]
      rfl
    rw [hmissing, extend_of_length_le bits (by omega)]
    exact ⟨rfl, fun found hfound => by simp at hfound⟩

/-- The walk from a node is that of the file from its n-gram. -/
theorem extensions_of_stands (hg : a.Graded) (bits : Nat) {level : Nat} {node : Node}
    {ngram : List WordId} (hs : Stands a level node ngram) (older : List WordId) :
    NgramIndex.extensions (ofArpa bits a : Trie P FloatValues) level node older =
      a.found ngram older := by
  induction older generalizing level node ngram with
  | nil => rfl
  | cons word older ih =>
    obtain ⟨hsame, hnext⟩ := extend_spec (P := P) hg bits hs word
    rw [Arpa.found, ← hsame]
    cases hextend : (ofArpa bits a : Trie P FloatValues).extend level node word with
    | none =>
      rw [NgramIndex.extensions_of_none _ hextend]
      rfl
    | some found =>
      rw [NgramIndex.extensions_of_some _ hextend, ih (hnext found hextend)]
      rfl

/-- The walk from a word is that of the file. -/
theorem extensions_ofArpa (hg : a.Graded) (hpos : 0 < a.unigrams.size) (bits : Nat) (word : Nat)
    (older : List WordId) :
    NgramIndex.extensions (ofArpa bits a : Trie P FloatValues) 1
        (NgramIndex.unigram (ofArpa bits a : Trie P FloatValues) word).1 older =
      a.found [a.resolve word] older := by
  have hnode : (NgramIndex.unigram (ofArpa bits a : Trie P FloatValues) word).1 =
      a.resolve word := congrArg Prod.fst (a.unigramAt_unigrams word)
  rw [hnode]
  exact extensions_of_stands hg bits (stands_word (Arpa.resolve_lt hpos word)) older

/-- The trie of a closed file has every n-gram without its last word. -/
theorem leftClosed_ofArpa (h : a.WellFormed) (hc : a.Closed) (bits bound : Nat) :
    NgramIndex.LeftClosed (ofArpa bits a : Trie P FloatValues) bound := by
  intro word newest older _ _ _ hchain
  rw [NgramIndex.chain?, NgramIndex.follow_isSome_iff,
    extensions_ofArpa h.graded h.unigrams_pos bits] at hchain ⊢
  rw [Arpa.le_length_found_iff h hc _ _ (Nat.le_refl _), Arpa.ngramAfter,
    List.take_length] at hchain
  have hlong : (a.weights? ((newest :: older).reverse ++ [a.resolve word])).isSome = true := by
    rcases hchain with h0 | hsome
    · simp at h0
    · exact hsome
  have hfront := Arpa.isSome_weights?_dropLast h hc (by simp) hlong
  rw [List.dropLast_concat, List.reverse_cons] at hfront
  -- The newest word is one of the vocabulary, as it ends an n-gram.
  have hnewest := Arpa.isSome_weights?_suffix h hc older.reverse (List.cons_ne_nil newest []) hfront
  rw [Arpa.isSome_weights?_singleton] at hnewest
  rw [Arpa.resolve_of_lt hnewest, Arpa.le_length_found_iff h hc _ _ (Nat.le_refl _),
    Arpa.ngramAfter, List.take_length]
  exact Or.inr hfront

end Plain

end BackoffLM.Trie

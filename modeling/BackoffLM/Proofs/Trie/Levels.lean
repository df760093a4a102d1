import BackoffLM.Proofs.Arpa.Entries
import BackoffLM.Proofs.Pointers
import BackoffLM.Proofs.Trie.Offsets

/-!
# The levels of the trie of a file

`keyLevels` lists the keys of every level of the trie of a file, the unigrams first. A level is the
section of its order, sorted under the keys of the level above (`LevelOf.exists_section`), so that
its keys increase, have the length of its order, and have their prefix above them.
`LevelOf.level_eq` and `LevelOf.pointers_eq` say how the trie stores a level and its pointers,
whatever kind of pointers and weights it has.
-/

namespace BackoffLM.Trie

/-! ## The levels of a file -/

/-- The entries that stay, by level from order 2 on. -/
def keptLevels (a : Arpa) : List (List Keyed) := sortLevels 2 (unigramKeys a.unigrams.size) a.ngrams

/-- The keys by level, the unigrams first. -/
def keyLevels (a : Arpa) : List (List Key) :=
  unigramKeys a.unigrams.size :: (keptLevels a).map fun level => level.map Keyed.key

/-- Each level is a section, sorted under the keys of the level above. -/
theorem getElem?_sortLevels (n : Nat) (parents : List Key) (sections : List (Array Entry))
    (k : Nat) :
    (sortLevels n parents sections)[k]? =
      ((parents :: (sortLevels n parents sections).map fun level => level.map Keyed.key)[k]?).bind
        fun above => sections[k]?.map (sortLevel (n + k) above) := by
  induction sections generalizing n parents k with
  | nil => cases k <;> simp [sortLevels]
  | cons s sections ih =>
    cases k with
    | zero => rfl
    | succ k =>
      rw [sortLevels, List.getElem?_cons_succ, ih, List.map_cons, List.getElem?_cons_succ,
        List.getElem?_cons_succ, Nat.add_right_comm, Nat.add_assoc n k 1]

/-- There are as many levels as sections. -/
theorem length_sortLevels (n : Nat) (parents : List Key) (sections : List (Array Entry)) :
    (sortLevels n parents sections).length = sections.length := by
  induction sections generalizing n parents with
  | nil => rfl
  | cons s sections ih => rw [sortLevels, List.length_cons, ih, List.length_cons]

/-- A level with its keys and those above it. -/
structure LevelOf (a : Arpa) (k : Nat) (above : List Key) (kept : List Keyed) : Prop where
  above_eq : (keyLevels a)[k]? = some above
  kept_eq : (keptLevels a)[k]? = some kept

namespace LevelOf

variable {a : Arpa} {k : Nat} {above : List Key} {kept : List Keyed}

/-- The section that a level was made from. -/
theorem exists_section (h : LevelOf a k above kept) :
    ∃ s, a.ngrams[k]? = some s ∧ kept = sortLevel (k + 2) above s := by
  have hk := h.kept_eq
  rw [keptLevels, getElem?_sortLevels] at hk
  change ((keyLevels a)[k]?).bind _ = _ at hk
  rw [h.above_eq, Option.bind_some, Option.map_eq_some_iff] at hk
  obtain ⟨s, hs, heq⟩ := hk
  exact ⟨s, hs, by rw [← heq, Nat.add_comm k 2]⟩

/-- The keys of a level are those above the next one. -/
theorem keys_eq (h : LevelOf a k above kept) :
    (keyLevels a)[k + 1]? = some (kept.map Keyed.key) := by
  rw [keyLevels, List.getElem?_cons_succ, List.getElem?_map, h.kept_eq, Option.map_some]

/-- The keys of a level increase. -/
theorem keys_sorted (h : LevelOf a k above kept) : (kept.map Keyed.key).Pairwise (· < ·) := by
  obtain ⟨s, -, rfl⟩ := h.exists_section
  exact sortLevel_sorted _ _ _

/-- In a graded file the keys of a level have the length of its order. -/
theorem length_key (h : LevelOf a k above kept) (hg : a.Graded) :
    ∀ e ∈ kept, e.key.length = k + 2 := by
  obtain ⟨s, hs, rfl⟩ := h.exists_section
  intro e he
  obtain ⟨entry, hentry, hkey⟩ := exists_entry_of_mem_sortLevel he
  rw [hkey, List.length_reverse]
  exact hg k s hs entry hentry

/-- The prefix of a key is above it. -/
theorem take_mem (h : LevelOf a k above kept) : ∀ e ∈ kept, e.key.take (k + 1) ∈ above := by
  obtain ⟨s, -, rfl⟩ := h.exists_section
  intro e he
  exact take_mem_of_mem_sortLevel he

/-- What a level has under the key of a node above and one more word is what the file has. -/
theorem weights?_eq (h : LevelOf a k above kept) (hg : a.Graded) {ngram : List WordId}
    (hlength : ngram.length = k + 1) (hmem : ngram.reverse ∈ above) (word : WordId) :
    a.weights? (word :: ngram) =
      (kept.find? (Keyed.hasKey (ngram.reverse ++ [word]))).map Keyed.weights := by
  obtain ⟨s, hs, rfl⟩ := h.exists_section
  have hlen : (word :: ngram).length = k + 2 := by rw [List.length_cons, hlength]
  have htake : (ngram.reverse ++ [word]).take (k + 2 - 1) = ngram.reverse := by
    rw [show k + 2 - 1 = ngram.reverse.length by rw [List.length_reverse]; omega]
    exact List.take_left
  have hwords : (fun e : Entry => e.words.reverse == ngram.reverse ++ [word]) =
      fun e => e.words == word :: ngram := by
    funext e
    rw [← List.reverse_cons, Bool.eq_iff_iff, beq_iff_eq, beq_iff_eq, List.reverse_inj]
  rw [Arpa.weights?_eq_section hg hlen, hs, Option.bind_some, find?_sortLevel, htake, if_pos hmem,
    hwords, Option.map_map]
  rfl

end LevelOf

/-- Every level but the last has one below. -/
theorem exists_levelOf {a : Arpa} {k : Nat} {above : List Key}
    (h : (keyLevels a)[k]? = some above) (hk : k < a.ngrams.length) :
    ∃ kept, LevelOf a k above kept := by
  have hlt : k < (keptLevels a).length := by
    rw [keptLevels, length_sortLevels]
    exact hk
  exact ⟨_, h, List.getElem?_eq_getElem hlt⟩

/-- Every section has its level. -/
theorem exists_levelOf_of_lt {a : Arpa} {k : Nat} (hk : k < a.ngrams.length) :
    ∃ above kept, LevelOf a k above kept := by
  have habove : k < (keyLevels a).length := by
    rw [keyLevels, List.length_cons, List.length_map, keptLevels, length_sortLevels]
    omega
  exact ⟨_, exists_levelOf (List.getElem?_eq_getElem habove) hk⟩

/-- The keys of the unigrams increase. -/
theorem unigramKeys_sorted (count : Nat) : (unigramKeys count).Pairwise (· < ·) := by
  rw [unigramKeys, List.pairwise_map]
  refine List.pairwise_lt_range.imp fun {x y} h => ?_
  rw [List.cons_lt_cons_iff]
  exact .inl h

/-- The keys above a level increase and have the length of their order. -/
theorem above_spec {a : Arpa} (hg : a.Graded) {k : Nat} {above : List Key}
    (h : (keyLevels a)[k]? = some above) :
    above.Pairwise (· < ·) ∧ ∀ p ∈ above, p.length = k + 1 := by
  cases k with
  | zero =>
    obtain rfl : unigramKeys a.unigrams.size = above := Option.some.inj h
    refine ⟨unigramKeys_sorted _, fun p hp => ?_⟩
    obtain ⟨word, -, rfl⟩ := List.mem_map.mp hp
    rfl
  | succ k =>
    -- The keys are those of the level `k`, which lies below other keys.
    have hlt : k < a.ngrams.length := by
      rw [keyLevels, List.getElem?_cons_succ, List.getElem?_map, Option.map_eq_some_iff] at h
      obtain ⟨kept, hkept, -⟩ := h
      have := (List.getElem?_eq_some_iff.mp hkept).1
      rwa [keptLevels, length_sortLevels] at this
    have habove : ∃ p, (keyLevels a)[k]? = some p := by
      refine ⟨_, List.getElem?_eq_getElem ?_⟩
      rw [keyLevels, List.length_cons, List.length_map, keptLevels, length_sortLevels]
      omega
    obtain ⟨p, hp⟩ := habove
    obtain ⟨kept, hlevel⟩ := exists_levelOf hp hlt
    rw [hlevel.keys_eq] at h
    obtain rfl := Option.some.inj h
    refine ⟨hlevel.keys_sorted, fun q hq => ?_⟩
    obtain ⟨e, he, rfl⟩ := List.mem_map.mp hq
    exact hlevel.length_key hg e he

/-! ## How a trie stores them -/

/-- The offsets from a level to the next one come from the keys of both. -/
theorem getElem?_offsetsFrom (parents : List Key) (levels : List (List Keyed)) (k : Nat) :
    (offsetsFrom parents levels)[k]? =
      ((parents :: levels.map fun level => level.map Keyed.key)[k]?).bind fun above =>
        levels[k]?.map fun kept => childOffsets above (kept.map Keyed.key) 0 := by
  induction levels generalizing parents k with
  | nil => cases k <;> simp [offsetsFrom]
  | cons level levels ih =>
    cases k with
    | zero => rfl
    | succ k =>
      rw [offsetsFrom, List.getElem?_cons_succ, ih, List.map_cons, List.getElem?_cons_succ,
        List.getElem?_cons_succ]

/-- The offsets above the levels of a file. -/
def fileOffsets (a : Arpa) : List (List Nat) :=
  offsetsFrom (unigramKeys a.unigrams.size) (keptLevels a)

/-- The offsets above a level. -/
theorem LevelOf.offsets_eq {a : Arpa} {k : Nat} {above : List Key} {kept : List Keyed}
    (h : LevelOf a k above kept) :
    (fileOffsets a)[k]? = some (childOffsets above (kept.map Keyed.key) 0) := by
  rw [fileOffsets, getElem?_offsetsFrom]
  change ((keyLevels a)[k]?).bind _ = _
  rw [h.above_eq, h.kept_eq]
  rfl

section Stored

variable {P V : Type} [PointerArray P] [WeightStore V]

/-- A level as it is stored: the last words of its keys, its weights, and its pointers. -/
def storedLevel (bits order n : Nat) (kept : List Keyed) (offsets : Option (List Nat)) :
    Level P V where
  words := (kept.map fun e => e.key.getD (n - 1) unknownId).toArray
  values := WeightStore.ofWeights bits (kept.map Keyed.weights) (n < order)
  next := offsets.map PointerArray.ofOffsets

/-- Each level is stored with the offsets below it. -/
theorem getElem?_storeLevels (bits order n : Nat) (levels : List (List Keyed))
    (offsets : List (List Nat)) (k : Nat) :
    (storeLevels bits order n levels offsets : List (Level P V))[k]? =
      levels[k]?.map fun kept => storedLevel bits order (n + k) kept offsets[k]? := by
  induction levels generalizing n offsets k with
  | nil => rfl
  | cons level levels ih =>
    cases k with
    | zero =>
      rw [storeLevels, List.getElem?_cons_zero, List.getElem?_cons_zero, Option.map_some,
        ← List.head?_eq_getElem?]
      rfl
    | succ k =>
      rw [storeLevels, List.getElem?_cons_succ, ih, List.getElem?_cons_succ,
        List.getElem?_tail, Nat.add_right_comm, Nat.add_assoc n k 1]

/-- A level of the trie of a file. -/
theorem LevelOf.level_eq {a : Arpa} {k : Nat} {above : List Key} {kept : List Keyed}
    (h : LevelOf a k above kept) (bits : Nat) :
    (ofArpa bits a : Trie P V).levels[k]? =
      some (storedLevel bits a.order (k + 2) kept (fileOffsets a)[k + 1]?) := by
  show ((storeLevels bits a.order 2 (keptLevels a) (fileOffsets a).tail).toArray)[k]? = _
  rw [List.getElem?_toArray, getElem?_storeLevels, h.kept_eq, List.getElem?_tail,
    Nat.add_comm 2 k]
  rfl

/-- The pointers above a level of the trie of a file. -/
theorem LevelOf.pointers_eq {a : Arpa} {k : Nat} {above : List Key} {kept : List Keyed}
    (h : LevelOf a k above kept) (bits : Nat) :
    (ofArpa bits a : Trie P V).pointers? (k + 1) =
      some (PointerArray.ofOffsets (childOffsets above (kept.map Keyed.key) 0)) := by
  cases k with
  | zero =>
    show (fileOffsets a).head?.map PointerArray.ofOffsets = _
    rw [List.head?_eq_getElem?, h.offsets_eq]
    rfl
  | succ k =>
    -- The level above is the one of this level's pointers.
    have hlt : k < (keptLevels a).length := by
      have := (List.getElem?_eq_some_iff.mp h.kept_eq).1
      omega
    have habove : k < (keyLevels a).length := by
      have := (List.getElem?_eq_some_iff.mp h.above_eq).1
      omega
    have hup : LevelOf a k _ _ :=
      ⟨List.getElem?_eq_getElem habove, List.getElem?_eq_getElem hlt⟩
    show (ofArpa bits a : Trie P V).levels[k]?.bind Level.next = _
    rw [hup.level_eq, Option.bind_some, storedLevel, h.offsets_eq]
    rfl

/-- Every level is stored. -/
theorem length_storeLevels (bits order n : Nat) (levels : List (List Keyed))
    (offsets : List (List Nat)) :
    (storeLevels bits order n levels offsets : List (Level P V)).length = levels.length := by
  induction levels generalizing n offsets with
  | nil => rfl
  | cons level levels ih => rw [storeLevels, List.length_cons, ih, List.length_cons]

/-- A trie has a level for each section. -/
theorem size_levels_ofArpa (bits : Nat) (a : Arpa) :
    (ofArpa bits a : Trie P V).levels.size = a.ngrams.length := by
  show ((storeLevels bits a.order 2 (keptLevels a) _).toArray).size = _
  rw [List.size_toArray, length_storeLevels, keptLevels, length_sortLevels]

/-- The order of a trie is that of its file. -/
theorem order_ofArpa (bits : Nat) (a : Arpa) : (ofArpa bits a : Trie P V).order = a.order := by
  rw [order, size_levels_ofArpa, Arpa.order]

end Stored

end BackoffLM.Trie

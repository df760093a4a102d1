import BackoffLM.Proofs.Arpa.Contents
import BackoffLM.Proofs.Files.Parts
import BackoffLM.Proofs.Probing.Lookup
import BackoffLM.Proofs.Trie.Levels

/-!
# Search structures in files

`StoredFrom` is what loading a search structure relies on, beside its being one of the right order:
it has a count for each order, it passes the check, and its encoding is read back. Tries and hash
tables that are built from a file have it (`Trie.storedFrom`, `Probing.storedFrom`), whatever
entries of the file they leave out or take as one. Offsets and counts are no greater than the
numbers of n-grams, and those no greater than the length of the encoding.
-/

namespace BackoffLM

open Codec

/-- What loading a search structure relies on, of one that was built from a file. -/
structure StoredFrom {S : Type} [StoredIndex S] (a : Arpa) (index : S) : Prop where
  order_eq : NgramIndex.order index = a.order
  length_counts : (StoredIndex.counts index).length = a.ngrams.length + 1
  head_counts : (StoredIndex.counts index).headD 0 = a.unigrams.size
  counts_le : ∀ n ∈ StoredIndex.counts index, n ≤ (StoredIndex.codec.encode index).length
  validate_eq : StoredIndex.validate index = .ok ()
  faithful : StoredIndex.codec.Faithful index

/-- There is a word in every file. -/
theorem Arpa.WellFormed.isEmpty_unigrams {a : Arpa} (h : a.WellFormed) :
    a.unigrams.isEmpty = false := by
  rw [Array.isEmpty_eq_false_iff_exists_mem]
  exact ⟨_, Array.getElem_mem h.unigrams_pos⟩

/-! ## Tries -/

namespace Trie

variable {P V : Type} [PointerArray P] [WeightStore V]

/-! ### Lengths -/

/-- The words of a level are not more than the bytes of the trie. -/
theorem size_words_le (t : Trie P V) {level : Level P V} (h : level ∈ t.levels.toList) :
    level.words.size ≤ (codec.encode t).length := by
  have hword : (Codec.word 4).Visible := visible_word (by decide)
  calc level.words.size
    _ ≤ ((Codec.seq (.word 4)).encode level.words).length := hword.size_le level.words
    _ ≤ (levelCodec.encode level).length :=
      length_encode_fst_le _ _ (level.words, level.values, level.next)
    _ ≤ ((Codec.seq levelCodec).encode t.levels).length := length_encode_le_of_mem levelCodec h
    _ ≤ (((Codec.optional (PointerArray.codec (P := P))).pair (.seq (levelCodec (V := V)))).encode
        (t.unigramNext, t.levels)).length := length_encode_snd_le _ _ (t.unigramNext, t.levels)
    _ ≤ (codec.encode t).length :=
      length_encode_snd_le _ _ (t.unigrams, t.unigramNext, t.levels)

/-- The words of a model are not more than the bytes of its trie. -/
theorem size_unigrams_le (t : Trie P V) : t.unigrams.size ≤ (codec.encode t).length :=
  calc t.unigrams.size
    _ ≤ ((Codec.seq .weights).encode t.unigrams).length := visible_weights.size_le t.unigrams
    _ ≤ (codec.encode t).length :=
      length_encode_fst_le _ _ (t.unigrams, t.unigramNext, t.levels)

/-! ### The levels of a file -/

/-- There are offsets above each level. -/
theorem length_fileOffsets (a : Arpa) : (fileOffsets a).length = a.ngrams.length := by
  have hoffsets : ∀ (parents : List Key) (levels : List (List Keyed)),
      (offsetsFrom parents levels).length = levels.length := by
    intro parents levels
    induction levels generalizing parents with
    | nil => rfl
    | cons level levels ih => rw [offsetsFrom, List.length_cons, ih, List.length_cons]
  rw [fileOffsets, hoffsets, keptLevels, length_sortLevels]

/-- A stored level has the words that were kept. -/
theorem size_words_storedLevel (bits order n : Nat) (kept : List Keyed)
    (offsets : Option (List Nat)) :
    (storedLevel bits order n kept offsets : Level P V).words.size = kept.length := by
  rw [storedLevel, List.size_toArray, List.length_map]

/-- The levels of the trie of a file are those of its sections. -/
theorem exists_levelOf_of_getElem? {bits : Nat} {a : Arpa} {k : Nat} {level : Level P V}
    (h : (ofArpa bits a : Trie P V).levels[k]? = some level) :
    ∃ above kept, LevelOf a k above kept ∧
      level = storedLevel bits a.order (k + 2) kept (fileOffsets a)[k + 1]? := by
  have hk := (Array.getElem?_eq_some_iff.mp h).1
  rw [size_levels_ofArpa] at hk
  obtain ⟨above, kept, hlevel⟩ := exists_levelOf_of_lt hk
  rw [hlevel.level_eq] at h
  exact ⟨above, kept, hlevel, (Option.some.inj h).symm⟩

/-! ### The check -/

/-- Levels pass the check when each does. -/
theorem validateLevels_eq {n : Nat} {levels : List (Level P V)}
    (h : ∀ (k : Nat) (level : Level P V), levels[k]? = some level →
      WeightStore.size level.values = level.words.size ∧
        WeightStore.validate level.values = .ok () ∧
          validateNext level.next level.words.size (levels.drop (k + 1)) (.pointers (n + k)) =
            .ok ()) :
    validateLevels n levels = .ok () := by
  induction levels generalizing n with
  | nil => rfl
  | cons level levels ih =>
    obtain ⟨hsize, hvalues, hnext⟩ := h 0 level rfl
    rw [List.drop_succ_cons, List.drop_zero, Nat.add_zero] at hnext
    rw [validateLevels, if_neg (not_not_intro hsize), hvalues, ok_bind, hnext, ok_bind]
    refine ih fun k below hbelow => ?_
    have hk := h (k + 1) below hbelow
    rwa [List.drop_succ_cons, show n + (k + 1) = n + 1 + k by omega] at hk

section Check

variable [LawfulPointers P]

/-- The pointers above a level pass the check, and there are none below the last. -/
theorem validateNext_ofArpa (bits : Nat) {a : Arpa} (hg : a.Graded) {k : Nat} {above : List Key}
    (habove : (keyLevels a)[k]? = some above) (flaw : Flaw) :
    validateNext ((fileOffsets a)[k]?.map PointerArray.ofOffsets : Option P) above.length
      ((ofArpa bits a : Trie P V).levels.toList.drop k) flaw = .ok () := by
  rcases Nat.lt_or_ge k a.ngrams.length with hk | hk
  · obtain ⟨kept, hlevel⟩ := exists_levelOf habove hk
    have hbelow := hlevel.level_eq (P := P) (V := V) bits
    rw [← Array.getElem?_toList] at hbelow
    obtain ⟨hlt, hget⟩ := List.getElem?_eq_some_iff.mp hbelow
    obtain ⟨hsorted, hlength⟩ := above_spec hg habove
    rw [hlevel.offsets_eq, List.drop_eq_getElem_cons hlt, hget]
    show PointerArray.validate _ above.length
      (storedLevel bits a.order (k + 2) kept _).words.size = _
    rw [size_words_storedLevel]
    refine PointerArray.validate_ofOffsets (length_childOffsets _ _ _)
      (childOffsets_sorted hsorted hlength hlevel.keys_sorted 0) fun o ho => ?_
    have hle := le_of_mem_childOffsets hsorted hlength hlevel.keys_sorted ho
    rwa [List.length_map] at hle
  · have hnone : (fileOffsets a)[k]? = none :=
      List.getElem?_eq_none (by rw [length_fileOffsets]; exact hk)
    have hnil : (ofArpa bits a : Trie P V).levels.toList.drop k = [] :=
      List.drop_of_length_le (by rw [Array.length_toList, size_levels_ofArpa]; exact hk)
    rw [hnone, hnil]
    rfl

/-- The trie of a file passes the check. -/
theorem validate_ofArpa [StoredWeights V] {bits : Nat} (hbits : bits ≤ 8) {a : Arpa}
    (h : a.WellFormed) : validate (ofArpa bits a : Trie P V) = .ok () := by
  have hunigrams : (ofArpa bits a : Trie P V).unigrams.isEmpty = false := h.isEmpty_unigrams
  have hfirst : (unigramKeys a.unigrams.size).length = a.unigrams.size := by
    rw [unigramKeys, List.length_map, List.length_range]
  have htop : validateNext (ofArpa bits a : Trie P V).unigramNext a.unigrams.size
      (ofArpa bits a : Trie P V).levels.toList .unigramPointers = .ok () := by
    have hnext := validateNext_ofArpa (P := P) (V := V) bits h.graded (k := 0) rfl .unigramPointers
    rwa [hfirst, List.drop_zero, ← List.head?_eq_getElem?] at hnext
  unfold validate
  rw [hunigrams, if_neg (by simp)]
  show (do
    validateNext (ofArpa bits a : Trie P V).unigramNext a.unigrams.size
      (ofArpa bits a : Trie P V).levels.toList .unigramPointers
    validateLevels 2 (ofArpa bits a : Trie P V).levels.toList) = _
  rw [htop, ok_bind]
  refine validateLevels_eq fun k level hk => ?_
  rw [Array.getElem?_toList] at hk
  obtain ⟨above, kept, hlevel, rfl⟩ := exists_levelOf_of_getElem? hk
  rw [size_words_storedLevel]
  refine ⟨?_, StoredWeights.validate_ofWeights bits _ _ hbits, ?_⟩
  · exact (StoredWeights.size_ofWeights bits _ _).trans (List.length_map _)
  · -- The parents of the next level are what this level kept.
    have hnext := validateNext_ofArpa (P := P) (V := V) bits h.graded hlevel.keys_eq
      (.pointers (2 + k))
    rwa [List.length_map] at hnext

end Check

/-! ### The encoding -/

section Encoding

variable [StoredPointers P]

/-- The pointers above a level are read back. -/
theorem faithful_next (bits : Nat) {a : Arpa} (hg : a.Graded)
    (hlength : (codec.encode (ofArpa bits a : Trie P V)).length < lengthBound) (k : Nat) :
    (Codec.optional (PointerArray.codec (P := P))).Faithful
      ((fileOffsets a)[k]?.map PointerArray.ofOffsets) := by
  refine Faithful.optional fun p hp => ?_
  obtain ⟨offsets, hoffsets, rfl⟩ := Option.map_eq_some_iff.mp hp
  have hk := (List.getElem?_eq_some_iff.mp hoffsets).1
  rw [length_fileOffsets] at hk
  obtain ⟨above, kept, hlevel⟩ := exists_levelOf_of_lt hk
  obtain ⟨hsorted, hlen⟩ := above_spec hg hlevel.above_eq
  rw [hlevel.offsets_eq] at hoffsets
  obtain rfl := Option.some.inj hoffsets
  refine StoredPointers.faithful_ofOffsets _
    (childOffsets_sorted hsorted hlen hlevel.keys_sorted 0) fun o ho => ?_
  -- An offset is at most the number of words of the level that it leads to.
  have hle := le_of_mem_childOffsets hsorted hlen hlevel.keys_sorted ho
  have hwords := size_words_le (ofArpa bits a : Trie P V)
    (List.mem_of_getElem? (by rw [Array.getElem?_toList]; exact hlevel.level_eq bits))
  rw [size_words_storedLevel] at hwords
  rw [List.length_map] at hle
  omega

variable [StoredWeights V]

/-- The last words of the keys of a level are numbers that a word can hold. -/
theorem lt_of_mem_words {a : Arpa} (hwords : ∀ e ∈ a.entries, ∀ word ∈ e.words, word < wordRange 4)
    {k : Nat} {above : List Key} {kept : List Keyed} (h : LevelOf a k above kept) {e : Keyed}
    (he : e ∈ kept) (n : Nat) : e.key.getD n unknownId < wordRange 4 := by
  obtain ⟨s, hs, rfl⟩ := h.exists_section
  obtain ⟨entry, hentry, hkey⟩ := exists_entry_of_mem_sortLevel he
  have hmem : entry ∈ a.entries := List.mem_flatMap.mpr ⟨s, List.mem_of_getElem? hs, hentry⟩
  rw [List.getD_eq_getElem?_getD]
  cases hget : e.key[n]? with
  | none => decide
  | some word =>
    have hword := List.mem_of_getElem? hget
    rw [hkey, List.mem_reverse] at hword
    exact hwords entry hmem word hword

/-- The trie of a file is read back. -/
theorem faithful_ofArpa (bits : Nat) {a : Arpa} (hg : a.Graded)
    (hwords : ∀ e ∈ a.entries, ∀ word ∈ e.words, word < wordRange 4) :
    codec.Faithful (ofArpa bits a : Trie P V) := by
  intro hlength
  have hlevels : ∀ level ∈ (ofArpa bits a : Trie P V).levels.toList, levelCodec.Faithful level := by
    intro level hmem
    obtain ⟨k, hk⟩ := List.mem_iff_getElem?.mp hmem
    rw [Array.getElem?_toList] at hk
    obtain ⟨above, kept, hlevel, rfl⟩ := exists_levelOf_of_getElem? hk
    refine Faithful.map (Faithful.pair (p := (_, _, _)) ?_ (Faithful.pair (p := (_, _)) ?_ ?_)) rfl
    · refine Faithful.seq (visible_word (by decide)) fun word hword => faithful_word ?_
      obtain ⟨e, he, rfl⟩ := List.mem_map.mp hword
      exact lt_of_mem_words hwords hlevel he _
    · exact StoredWeights.faithful _
    · exact faithful_next bits hg hlength (k + 1)
  have hunigramNext := faithful_next (P := P) (V := V) bits hg hlength 0
  rw [← List.head?_eq_getElem?] at hunigramNext
  exact Faithful.map (Faithful.pair (p := (_, _, _))
    (Faithful.seq visible_weights fun w _ => faithful_weights w)
    (Faithful.pair (p := (_, _)) hunigramNext
      (Faithful.seq (((visible_seq _).pair _).map _ _) hlevels))) rfl hlength

/-- The trie of a file can be stored. -/
theorem storedFrom {bits : Nat} (hbits : bits ≤ 8) {a : Arpa} (h : a.WellFormed)
    (hwords : ∀ e ∈ a.entries, ∀ word ∈ e.words, word < wordRange 4) :
    StoredFrom a (ofArpa bits a : Trie P V) where
  order_eq := order_ofArpa bits a
  length_counts := by
    show (counts _).length = _
    rw [counts, List.length_cons, List.length_map, Array.length_toList, size_levels_ofArpa]
  head_counts := rfl
  counts_le n hn := by
    rcases List.mem_cons.mp hn with rfl | hn
    · exact size_unigrams_le _
    · obtain ⟨level, hlevel, rfl⟩ := List.mem_map.mp hn
      exact size_words_le _ hlevel
  validate_eq := validate_ofArpa hbits h
  faithful := faithful_ofArpa bits h.graded hwords

end Encoding

end Trie

/-! ## Hash tables -/

namespace Probing

namespace Table

variable {t : Table}

/-- A table counts its buckets in use, and has one that is not. -/
structure Counted (t : Table) : Prop where
  entries_eq : t.entries = t.used
  used_lt : t.used < t.buckets.size

/-- Insertion counts a bucket that it takes into use. -/
theorem entries_insert (h : t.entries = t.used) {key : UInt64} (hkey : key ≠ emptyKey)
    (weights : Weights) : (t.insert key weights).entries = (t.insert key weights).used := by
  cases hplace : t.place key with
  | none =>
    unfold insert
    rw [hplace]
    exact h
  | some i => rw [entries_insert_of_place hkey hplace, used_insert_of_place hkey hplace, h]

/-- As long as there is room, insertions keep a table counted. -/
theorem counted_foldl_insert (hasBackoff : Bool) {entries : List Entry} (h : t.entries = t.used)
    (hroom : t.used + entries.length < t.buckets.size)
    (hkeys : ∀ e ∈ entries, ngramHash e.words ≠ emptyKey) :
    (entries.foldl (fun t e => t.insert (ngramHash e.words) (e.weights.keepBackoff hasBackoff))
      t).Counted := by
  induction entries generalizing t with
  | nil => exact ⟨h, hroom⟩
  | cons e entries ih =>
    rw [List.length_cons] at hroom
    have hused := used_insert_le (t := t) (ngramHash e.words) (e.weights.keepBackoff hasBackoff)
    rw [List.foldl_cons]
    refine ih (entries_insert h (hkeys e (by simp)) _) ?_
      fun e' he' => hkeys e' (List.mem_cons_of_mem e he')
    rw [size_buckets_insert]
    omega

/-- The table of some n-grams is counted. -/
theorem counted_ofEntries (hasBackoff : Bool) {entries : Array Entry}
    (hkeys : ∀ e ∈ entries.toList, ngramHash e.words ≠ emptyKey) :
    (ofEntries hasBackoff entries).Counted := by
  rw [ofEntries, ← Array.foldl_toList]
  refine counted_foldl_insert hasBackoff ?_ ?_ hkeys
  · rw [used_withRoom]
    rfl
  · rw [used_withRoom, withRoom, Array.size_replicate, Array.length_toList]
    omega

/-- How a bucket is stored. -/
def bucketCodec : Codec Bucket :=
  (Codec.word64.pair .weights).map (fun p => ⟨p.1, p.2⟩) fun b => (b.key, b.weights)

/-- A table is its buckets and its count. -/
theorem codec_eq : codec = ((Codec.seq bucketCodec).pair (.word 8)).map
    (fun p => ⟨p.1, p.2⟩) fun t => (t.buckets, t.entries) := rfl

/-- A bucket is not empty. -/
theorem visible_bucketCodec : bucketCodec.Visible :=
  (((visible_word (by decide)).map _ _).pair _).map _ _

/-- The buckets of a table are not more than its bytes. -/
theorem size_buckets_le (t : Table) : t.buckets.size ≤ (codec.encode t).length :=
  calc t.buckets.size
    _ ≤ ((Codec.seq bucketCodec).encode t.buckets).length := visible_bucketCodec.size_le t.buckets
    _ ≤ (codec.encode t).length := length_encode_fst_le _ _ (t.buckets, t.entries)

/-- A counted table is read back. -/
theorem Counted.faithful (h : t.Counted) : codec.Faithful t := by
  intro hlength
  -- The count is at most the number of buckets, which is within the length.
  have hsize := size_buckets_le t
  have hcount : t.entries < wordRange 8 := by
    have hlt := h.used_lt
    have hentries := h.entries_eq
    show _ < lengthBound
    omega
  rw [codec_eq] at hlength ⊢
  exact Faithful.map (Faithful.pair (p := (t.buckets, t.entries))
    (Faithful.seq visible_bucketCodec fun b _ =>
      Faithful.map (Faithful.pair (p := (_, _)) (faithful_word64 _) (faithful_weights _)) rfl)
    (faithful_word hcount)) rfl hlength

end Table

/-- The tables of a file are counted. -/
theorem counted_of_mem_tables {a : Arpa} (hg : a.Graded) {t : Table}
    (h : t ∈ (ofArpa a).tables.toList) : t.Counted := by
  obtain ⟨k, hk⟩ := List.mem_iff_getElem?.mp h
  rw [Array.getElem?_toList, getElem?_tables, Option.map_eq_some_iff] at hk
  obtain ⟨s, hs, rfl⟩ := hk
  refine Table.counted_ofEntries _ fun e he => ngramHash_ne_emptyKey ?_
  have := hg k s hs e he
  omega

/-- Counted tables pass the check. -/
theorem validateTables_eq {n : Nat} {tables : List Table} (h : ∀ t ∈ tables, t.Counted) :
    validateTables n tables = .ok () := by
  induction tables generalizing n with
  | nil => rfl
  | cons t tables ih =>
    have ht := h t (by simp)
    have hentries := ht.entries_eq
    have hlt := ht.used_lt
    rw [validateTables, if_neg (by omega)]
    exact ih fun t' ht' => h t' (List.mem_cons_of_mem t ht')

section Counted

variable {p : Probing} (h : ∀ t ∈ p.tables.toList, t.Counted)
include h

/-- Counted tables have no greater counts than their encoding has bytes. -/
theorem counts_le {n : Nat} (hn : n ∈ p.counts) : n ≤ (codec.encode p).length := by
  rcases List.mem_cons.mp hn with rfl | hn
  · calc p.unigrams.size
      _ ≤ ((Codec.seq .weights).encode p.unigrams).length := visible_weights.size_le p.unigrams
      _ ≤ (codec.encode p).length := length_encode_fst_le _ _ (p.unigrams, p.tables)
  · obtain ⟨t, ht, rfl⟩ := List.mem_map.mp hn
    calc t.entries
      _ = t.used := (h t ht).entries_eq
      _ ≤ t.buckets.size := Nat.le_of_lt (h t ht).used_lt
      _ ≤ (Table.codec.encode t).length := Table.size_buckets_le t
      _ ≤ ((Codec.seq Table.codec).encode p.tables).length :=
        length_encode_le_of_mem Table.codec ht
      _ ≤ (codec.encode p).length := length_encode_snd_le _ _ (p.unigrams, p.tables)

/-- Counted tables are read back. -/
theorem faithful_codec : codec.Faithful p :=
  Faithful.map (Faithful.pair (p := (p.unigrams, p.tables))
    (Faithful.seq visible_weights fun w _ => faithful_weights w)
    (Faithful.seq (((visible_seq _).pair _).map _ _) fun t ht => (h t ht).faithful)) rfl

end Counted

/-- The hash tables of a file can be stored. -/
theorem storedFrom {a : Arpa} (h : a.WellFormed) : StoredFrom a (ofArpa a) where
  order_eq := order_ofArpa a
  length_counts := by
    show (counts (ofArpa a)).length = _
    rw [counts, List.length_cons, List.length_map, ofArpa, List.toList_toArray, length_tablesFrom]
  head_counts := rfl
  counts_le _ hn := counts_le (fun _ ht => counted_of_mem_tables h.graded ht) hn
  validate_eq := by
    have hunigrams : (ofArpa a).unigrams.isEmpty = false := h.isEmpty_unigrams
    show validate (ofArpa a) = _
    rw [validate, hunigrams, if_neg (by simp)]
    exact validateTables_eq fun t ht => counted_of_mem_tables h.graded ht
  faithful := faithful_codec fun _ ht => counted_of_mem_tables h.graded ht

end Probing

end BackoffLM

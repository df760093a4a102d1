import BackoffLM.Proofs.Arpa.Entries
import BackoffLM.Proofs.Arpa.Sections
import BackoffLM.Proofs.Vocabulary

/-!
# What a file that was read is known to satisfy

`ofBytes_wellFormed` says of the contents of every file that is read well: the order is one that
models may have, every word has weights, every section holds n-grams of its own order over words of
the vocabulary, and none of them twice. The proof follows the reader: an invariant of each kind of
section (`Lexicon.WellFormed`, `Ngrams.WellFormed`) holds before its first line and is kept by each
line, and so holds of the sections that the file is made of (`ofBytes_sections`).
-/

namespace BackoffLM

namespace Arpa

/-- What holds of the contents of every file that was read. -/
structure WellFormed (a : Arpa) : Prop where
  order_le : a.ngrams.length + 1 ≤ maxOrder
  numbered : a.vocabulary.Numbered
  size_unigrams : a.unigrams.size = a.vocabulary.size
  /-- There is at least the unknown word. -/
  unigrams_pos : 0 < a.unigrams.size
  graded : a.Graded
  known : ∀ s ∈ a.ngrams, ∀ e ∈ s.toList, ∀ word ∈ e.words, word < a.unigrams.size
  distinct : ∀ s ∈ a.ngrams, (s.toList.map Entry.words).Nodup

/-! ## The unigrams -/

/-- The invariant of the unigram section. -/
structure Lexicon.WellFormed (l : Lexicon) : Prop where
  numbered : l.vocabulary.Numbered
  size_unigrams : l.unigrams.size = l.vocabulary.size
  unigrams_pos : 0 < l.unigrams.size

/-- Before any line there is the unknown word with weights. -/
theorem Lexicon.initial_wellFormed : Lexicon.initial.WellFormed where
  numbered := Vocabulary.numbered_empty.push (by simp [Vocabulary.empty])
  size_unigrams := rfl
  unigrams_pos := by decide

/-- A line adds a new word with its weights, or sets those of the unknown word. -/
theorem Lexicon.add_wellFormed {withBackoff : Bool} (l : Lexicon) (text : List Char) (l' : Lexicon)
    (hl : l.WellFormed) (h : Lexicon.add withBackoff l text = .ok l') : l'.WellFormed := by
  have hsize := hl.size_unigrams
  have hpos := hl.unigrams_pos
  obtain ⟨words, weights, -, ⟨-, rfl⟩ | ⟨hnew, rfl⟩⟩ := Lexicon.add_cases h
  · -- The unknown word keeps its number.
    exact ⟨hl.numbered, by simpa using hsize, by simpa using hpos⟩
  · -- A new word gets the next number, and its weights the same place.
    refine ⟨hl.numbered.push hnew, ?_, ?_⟩
    · simpa [Vocabulary.push, Vocabulary.size] using hsize
    · simp

/-! ## The longer n-grams -/

/-- Words that were looked up have numbers of the vocabulary. -/
theorem lookUp_spec {v : Vocabulary} (hv : v.Numbered) {words : List String} {ids : List WordId}
    (h : lookUp v words = .ok ids) :
    ids.length = words.length ∧ ∀ id ∈ ids, id < v.size := by
  induction words generalizing ids with
  | nil =>
    rw [← Except.ok.inj h]
    simp
  | cons word words ih =>
    rw [lookUp] at h
    split at h
    · simp at h
    · rename_i id hid
      obtain ⟨rest, hrest, rfl⟩ := map_eq_ok.mp h
      obtain ⟨hlen, hlt⟩ := ih hrest
      refine ⟨by rw [List.length_cons, List.length_cons, hlen], fun i hi => ?_⟩
      rcases List.mem_cons.mp hi with rfl | hi
      · exact (Array.getElem?_eq_some_iff.mp ((hv word _).mp hid)).1
      · exact hlt i hi

/-- The invariant of the section of an order: its n-grams so far are of that order and over the
vocabulary, none is there twice, and all of them are remembered. -/
structure Ngrams.WellFormed (v : Vocabulary) (order : Nat) (ngrams : Ngrams) : Prop where
  length_words : ∀ e ∈ ngrams.entries.toList, e.words.length = order
  known : ∀ e ∈ ngrams.entries.toList, ∀ word ∈ e.words, word < v.size
  distinct : (ngrams.entries.toList.map Entry.words).Nodup
  seen : ∀ words, words ∈ ngrams.entries.toList.map Entry.words → ngrams.seen.contains words = true

/-- Before any line there are no n-grams. -/
theorem Ngrams.initial_wellFormed (v : Vocabulary) (order : Nat) :
    Ngrams.WellFormed v order ⟨#[], ∅⟩ := by
  refine ⟨fun e h => ?_, fun e h => ?_, List.nodup_nil, fun words h => ?_⟩
  · simp at h
  · simp at h
  · simp at h

/-- A line adds an n-gram that was not there. -/
theorem Ngrams.add_wellFormed {v : Vocabulary} (hv : v.Numbered) {order : Nat} {withBackoff : Bool}
    (ngrams : Ngrams) (text : List Char) (ngrams' : Ngrams) (hn : ngrams.WellFormed v order)
    (h : Ngrams.add v order withBackoff ngrams text = .ok ngrams') :
    ngrams'.WellFormed v order := by
  obtain ⟨words, weights, ids, hread, hids, hnew, rfl⟩ := Ngrams.add_cases h
  obtain ⟨hlen, hlt⟩ := lookUp_spec hv hids
  have horder := (readNgram_spec hread).1
  have hmem : ∀ e, e ∈ (ngrams.entries.push ⟨ids, weights⟩).toList →
      e ∈ ngrams.entries.toList ∨ e = ⟨ids, weights⟩ := by
    intro e he
    simpa using he
  refine ⟨fun e he => ?_, fun e he => ?_, ?_, fun ws hws => ?_⟩
  · rcases hmem e he with he | rfl
    · exact hn.length_words e he
    · rw [hlen, horder]
  · rcases hmem e he with he | rfl
    · exact hn.known e he
    · exact hlt
  · -- The words of the new n-gram are not among those seen before.
    rw [Array.toList_push, List.map_append, List.nodup_append]
    refine ⟨hn.distinct, by simp, fun ws hws ws' hws' heq => ?_⟩
    rw [List.map_singleton, List.mem_singleton] at hws'
    subst heq hws'
    have hseen := hn.seen _ hws
    rw [hnew] at hseen
    exact Bool.false_ne_true hseen
  · rw [Std.HashSet.contains_insert]
    rw [Array.toList_push, List.map_append, List.mem_append, List.map_singleton,
      List.mem_singleton] at hws
    rcases hws with hws | rfl
    · rw [hn.seen ws hws, Bool.or_true]
    · simp

/-! ## The whole file -/

/-- The contents of a file that was read are well formed. -/
theorem ofBytes_wellFormed {bytes : List UInt8} {atMost : Option Nat} {a : Arpa}
    (h : ofBytes bytes atMost = .ok a) : a.WellFormed := by
  obtain ⟨horder, hunigrams, hsections⟩ := ofBytes_sections h
  have hlexicon := hunigrams.invariant Lexicon.initial_wellFormed Lexicon.add_wellFormed
  -- The longer n-grams are read over the vocabulary that the unigrams left.
  have hngrams : ∀ (k : Nat) (entries : Array Entry), a.ngrams[k]? = some entries →
      ∃ seen, Ngrams.WellFormed a.vocabulary (k + 2) ⟨entries, seen⟩ := by
    intro k entries hk
    obtain ⟨seen, hreached⟩ := hsections k entries hk
    exact ⟨seen, hreached.invariant (Ngrams.initial_wellFormed _ _)
      (Ngrams.add_wellFormed hlexicon.numbered)⟩
  refine ⟨horder, hlexicon.numbered, hlexicon.size_unigrams, hlexicon.unigrams_pos,
    fun k s hs => ?_, fun s hs e he word hw => ?_, fun s hs => ?_⟩
  · obtain ⟨seen, hwf⟩ := hngrams k s hs
    exact hwf.length_words
  · obtain ⟨k, hk⟩ := List.mem_iff_getElem?.mp hs
    obtain ⟨seen, hwf⟩ := hngrams k s hk
    rw [hlexicon.size_unigrams]
    exact hwf.known e he word hw
  · obtain ⟨k, hk⟩ := List.mem_iff_getElem?.mp hs
    obtain ⟨seen, hwf⟩ := hngrams k s hk
    exact hwf.distinct

end Arpa

end BackoffLM

import BackoffLM.Proofs.Arpa.Closure
import BackoffLM.Proofs.Arpa.Reading
import Mathlib.Data.List.Nodup

/-!
# What the builders rely on

The builders of the search structures take the contents of a file as they are: they number words by
their places, cut sections at their ends, and give the n-grams of the highest order no backoff.
`ofBytes_valid` is what they rely on. Above what the sections satisfy one by one (`WellFormed`) it
says that the unknown word comes first (`Lexicon.unknown_first`), that no two n-grams of the whole
file are the same (`WellFormed.sequences_nodup`), and that the highest order that is kept has no
backoff, be it the highest of the file or not (`Lexicon.NoBackoff`, `Ngrams.NoBackoff`).
-/

namespace BackoffLM

namespace Arpa

/-- The words of every n-gram of a file: each word of the vocabulary alone, and those of the
entries. -/
def sequences (a : Arpa) : List (List WordId) :=
  (List.range a.vocabulary.size).map (fun id => [id]) ++ a.entries.map Entry.words

/-- The weights of the n-grams of the highest order. -/
def highest (a : Arpa) : List Weights :=
  match a.ngrams.getLast? with
  | none => a.unigrams.toList
  | some s => s.toList.map Entry.weights

/-- What the builders rely on. -/
structure Valid (a : Arpa) : Prop where
  order_eq : a.order = a.ngrams.length + 1
  one_le_order : 1 ≤ a.order
  order_le : a.order ≤ 6
  words_nodup : a.vocabulary.words.toList.Nodup
  numbered : a.vocabulary.Numbered
  unknown_first : a.vocabulary.word? unknownId = some unknownToken
  size_unigrams : a.unigrams.size = a.vocabulary.size
  length_words : ∀ (k : Nat) (s : Array Entry), a.ngrams[k]? = some s →
    ∀ e ∈ s.toList, e.words.length = k + 2
  known : ∀ e ∈ a.entries, ∀ word ∈ e.words, word < a.vocabulary.size
  sequences_nodup : a.sequences.Nodup
  highest_backoff : ∀ w ∈ a.highest, w.backoff = .zero

/-! ## The unknown word -/

/-- The unknown word stays the first, whatever lines follow. -/
theorem Lexicon.unknown_first {withBackoff : Bool} {l : Lexicon}
    (h : Reached (Lexicon.add withBackoff) Lexicon.initial l) :
    l.vocabulary.word? unknownId = some unknownToken := by
  refine h.invariant (P := fun l => l.vocabulary.word? unknownId = some unknownToken) rfl ?_
  intro l text l' hl hadd
  obtain ⟨words, weights, -, ⟨-, rfl⟩ | ⟨-, rfl⟩⟩ := Lexicon.add_cases hadd
  · exact hl
  · -- The new word comes after it.
    obtain ⟨hlt, -⟩ := Array.getElem?_eq_some_iff.mp hl
    show (l.vocabulary.words.push _)[unknownId]? = _
    rw [Array.getElem?_push_lt hlt]
    exact (Array.getElem?_eq_getElem hlt).symm.trans hl

/-- The vocabulary is the list of its words, whatever lines follow. -/
theorem Lexicon.vocabulary_eq_ofList {withBackoff : Bool} {l : Lexicon}
    (h : Reached (Lexicon.add withBackoff) Lexicon.initial l) :
    Vocabulary.ofList l.vocabulary.words.toList = l.vocabulary := by
  refine h.invariant (P := fun l => Vocabulary.ofList l.vocabulary.words.toList = l.vocabulary)
    rfl ?_
  intro l text l' hl hadd
  obtain ⟨words, weights, -, ⟨-, rfl⟩ | ⟨-, rfl⟩⟩ := Lexicon.add_cases hadd
  · exact hl
  · show Vocabulary.ofList (l.vocabulary.words.push _).toList = _
    rw [Vocabulary.ofList, Array.toList_push, List.foldl_append]
    change (Vocabulary.ofList l.vocabulary.words.toList).push _ = _
    rw [hl]

/-! ## The highest order -/

/-- No word so far has a backoff. -/
def Lexicon.NoBackoff (l : Lexicon) : Prop := ∀ w ∈ l.unigrams.toList, w.backoff = .zero

/-- Where no backoff is read, a line adds none. -/
theorem Lexicon.add_noBackoff (l : Lexicon) (text : List Char) (l' : Lexicon) (hl : l.NoBackoff)
    (h : Lexicon.add false l text = .ok l') : l'.NoBackoff := by
  obtain ⟨words, weights, hread, hl'⟩ := Lexicon.add_cases h
  have hzero : weights.backoff = .zero := (readNgram_spec hread).2 rfl
  rcases hl' with ⟨-, rfl⟩ | ⟨-, rfl⟩
  · intro w hw
    rw [Array.toList_setIfInBounds] at hw
    rcases List.mem_or_eq_of_mem_set hw with hw | rfl
    · exact hl w hw
    · exact hzero
  · intro w hw
    rw [Array.toList_push, List.mem_append, List.mem_singleton] at hw
    rcases hw with hw | rfl
    · exact hl w hw
    · exact hzero

/-- No n-gram of the section so far has a backoff. -/
def Ngrams.NoBackoff (ngrams : Ngrams) : Prop :=
  ∀ e ∈ ngrams.entries.toList, e.weights.backoff = .zero

/-- Where no backoff is read, a line adds none. -/
theorem Ngrams.add_noBackoff {v : Vocabulary} {order : Nat} (ngrams : Ngrams) (text : List Char)
    (ngrams' : Ngrams) (hn : ngrams.NoBackoff)
    (h : Ngrams.add v order false ngrams text = .ok ngrams') : ngrams'.NoBackoff := by
  obtain ⟨words, weights, ids, hread, -, -, rfl⟩ := Ngrams.add_cases h
  have hzero : weights.backoff = .zero := (readNgram_spec hread).2 rfl
  intro e he
  rw [Array.toList_push, List.mem_append, List.mem_singleton] at he
  rcases he with he | rfl
  · exact hn e he
  · exact hzero

/-- The highest order that is kept has no backoff. -/
theorem backoff_of_mem_highest {bytes : List UInt8} {atMost : Option Nat} {a : Arpa}
    (h : ofBytes bytes atMost = .ok a) {w : Weights} (hw : w ∈ a.highest) : w.backoff = .zero := by
  obtain ⟨-, hunigrams, hsections⟩ := ofBytes_sections h
  unfold highest at hw
  split at hw
  · -- Only words are kept.
    rename_i hlast
    have hnil : a.ngrams = [] := List.getLast?_eq_none_iff.mp hlast
    rw [hnil] at hunigrams
    have hinitial : Lexicon.initial.NoBackoff := by
      intro w hw
      rw [List.mem_singleton.mp hw]
      rfl
    exact hunigrams.invariant (P := Lexicon.NoBackoff) hinitial Lexicon.add_noBackoff w hw
  · rename_i s hlast
    have hk : a.ngrams[a.ngrams.length - 1]? = some s := by
      rw [← List.getLast?_eq_getElem?]
      exact hlast
    have hbound : a.ngrams.length - 1 < a.ngrams.length :=
      (List.getElem?_eq_some_iff.mp hk).1
    obtain ⟨seen, hreached⟩ := hsections _ s hk
    -- The last section is not below the highest order.
    have hhighest : decide (a.ngrams.length - 1 + 1 < a.ngrams.length) = false := by
      rw [decide_eq_false_iff_not]
      omega
    rw [hhighest] at hreached
    have hinitial : Ngrams.NoBackoff ⟨#[], ∅⟩ := by
      intro e he
      simp at he
    obtain ⟨e, he, rfl⟩ := List.mem_map.mp hw
    exact hreached.invariant (P := Ngrams.NoBackoff) hinitial Ngrams.add_noBackoff e he

/-! ## The whole file -/

/-- No two n-grams of a file have the same words, of whatever order they are. -/
theorem WellFormed.sequences_nodup {a : Arpa} (h : a.WellFormed) : a.sequences.Nodup := by
  have hentries : (a.entries.map Entry.words).Nodup := by
    rw [entries, List.map_flatMap, List.nodup_flatMap]
    constructor
    · exact h.distinct
    · -- The n-grams of different sections differ in length.
      rw [List.pairwise_iff_getElem]
      intro i j hi hj hij words hwi hwj
      obtain ⟨e, he, rfl⟩ := List.mem_map.mp hwi
      obtain ⟨f, hf, hwords⟩ := List.mem_map.mp hwj
      have hei := h.graded i _ (List.getElem?_eq_getElem hi) e he
      have hfj := h.graded j _ (List.getElem?_eq_getElem hj) f hf
      rw [hwords] at hfj
      omega
  rw [sequences, List.nodup_append]
  refine ⟨?_, hentries, ?_⟩
  · exact List.nodup_range.map fun i j hij => List.head_eq_of_cons_eq hij
  · intro words hwords words' hwords' heq
    subst heq
    obtain ⟨id, -, rfl⟩ := List.mem_map.mp hwords
    obtain ⟨e, he, hone⟩ := List.mem_map.mp hwords'
    obtain ⟨s, hs, hes⟩ := List.mem_flatMap.mp he
    obtain ⟨k, hk⟩ := List.mem_iff_getElem?.mp hs
    have hlen := h.graded k s hk e hes
    rw [hone, List.length_singleton] at hlen
    omega

/-- The contents of every file that is read are what the builders rely on, whatever its bytes are
and whichever orders are kept. -/
theorem ofBytes_valid {bytes : List UInt8} {atMost : Option Nat} {a : Arpa}
    (h : ofBytes bytes atMost = .ok a) : a.Valid := by
  have hwf := ofBytes_wellFormed h
  obtain ⟨hmax, hunigrams, -⟩ := ofBytes_sections h
  have horder := hwf.order_eq
  have hsix : a.ngrams.length + 1 ≤ 6 := hmax
  have hsize := hwf.size_unigrams
  refine ⟨horder, by omega, by omega, hwf.numbered.nodup, hwf.numbered,
    Lexicon.unknown_first hunigrams, hsize, hwf.graded, fun e he word hw => ?_,
    hwf.sequences_nodup, fun w hw => backoff_of_mem_highest h hw⟩
  rw [← hsize]
  exact hwf.lt_of_mem he hw

/-- The small file is read, and so its contents are what the builders rely on. -/
theorem ofBytes_valid_sample : ofBytes sample none = .ok sampleArpa ∧ sampleArpa.Valid :=
  ⟨ofBytes_sample, ofBytes_valid ofBytes_sample⟩

end Arpa

end BackoffLM

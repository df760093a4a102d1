import BackoffLM.Proofs.Arpa.Contents
import BackoffLM.Proofs.Probing.Lookup
import BackoffLM.Proofs.Safety.Runs
import BackoffLM.Proofs.Trie.Levels

/-!
# Models that loaders return

A `Loaded` model was read from a binary file of its kind or built from an ARPA file. Either way its
order is one that models may have (`Loaded.order_bounds`), so that a context of `maxOrder - 1` words
is as good as a longer one, its words have the numbers of their last places (`Loaded.byLastPlace`),
and every text has the number of a word (`Loaded.idOf_lt`).
-/

namespace BackoffLM.Model

/-- A model that a loader returns: one that was read from a binary file, or one that was built from
an ARPA file. -/
inductive Loaded {kind : Kind} : Model kind.Index → Prop
  | binary {bytes : List UInt8} {m : Model kind.Index} :
    (BinaryFile.ofBytes bytes >>= ofBinary) = .ok m → Loaded m
  | arpa {bytes : List UInt8} {atMost : Option Nat} {a : Arpa} (bits : Nat) :
    Arpa.ofBytes bytes atMost = .ok a → Loaded (ofArpa bits a)

variable {kind : Kind}

/-- Every kind of structure has the order of the file that it is built from. -/
theorem order_ofArpa_index (kind : Kind) (bits : Nat) (a : Arpa) :
    NgramIndex.order (ofArpa bits a : Model kind.Index).index = a.order := by
  cases kind with
  | probing => exact Probing.order_ofArpa a
  | trie => exact Trie.order_ofArpa bits a
  | arrayTrie => exact Trie.order_ofArpa bits a
  | quantTrie => exact Trie.order_ofArpa bits a
  | quantArrayTrie => exact Trie.order_ofArpa bits a

/-- The order of a loaded model is one that models may have. -/
theorem Loaded.order_bounds {m : Model kind.Index} (h : m.Loaded) :
    1 ≤ NgramIndex.order m.index ∧ NgramIndex.order m.index ≤ maxOrder := by
  cases h with
  | binary h =>
    have hm := accepted_of_ofBinary h
    exact ⟨hm.order_pos, hm.order_le⟩
  | @arpa bytes atMost a bits h =>
    have hwf := Arpa.ofBytes_wellFormed h
    have hmax := hwf.order_le
    rw [order_ofArpa_index, hwf.order_eq]
    omega

/-- In a loaded model a word has the number of its last place. -/
theorem Loaded.byLastPlace {m : Model kind.Index} (h : m.Loaded) : m.vocabulary.ByLastPlace := by
  cases h with
  | binary h =>
    obtain ⟨file, -, hbinary⟩ := bind_eq_ok.mp h
    obtain ⟨-, words, rest, -, -, hvocabulary⟩ := ofBinary_eq_ok_iff.mp hbinary
    rw [hvocabulary]
    exact Vocabulary.byLastPlace_ofList words.toList
  | arpa bits h => exact (Arpa.ofBytes_wellFormed h).numbered.byLastPlace

/-- The first word of a loaded model is the unknown word. -/
theorem Loaded.unknown_first {m : Model kind.Index} (h : m.Loaded) :
    m.vocabulary.word? unknownId = some unknownToken := by
  cases h with
  | binary h =>
    obtain ⟨file, -, hbinary⟩ := bind_eq_ok.mp h
    obtain ⟨-, words, rest, -, hagrees, hvocabulary⟩ := ofBinary_eq_ok_iff.mp hbinary
    rw [hvocabulary, Vocabulary.word?, Vocabulary.words_ofList]
    exact hagrees.unknown_first
  | arpa bits h =>
    obtain ⟨-, hunigrams, -⟩ := Arpa.ofBytes_sections h
    exact Arpa.Lexicon.unknown_first hunigrams

/-- In a loaded model every text has the number of a word. -/
theorem Loaded.idOf_lt {m : Model kind.Index} (h : m.Loaded) (word : String) :
    m.vocabulary.idOf word < m.vocabulary.size := by
  obtain ⟨hpos, -⟩ := Array.getElem?_eq_some_iff.mp h.unknown_first
  exact h.byLastPlace.idOf_lt hpos word

end BackoffLM.Model

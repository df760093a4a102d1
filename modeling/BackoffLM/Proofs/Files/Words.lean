import BackoffLM.Proofs.Files.RoundTrip
import BackoffLM.Proofs.Loaded

/-!
# Words of loaded models

A loaded model has a table of words, and words and numbers lead to each other: the unknown word has
the number 0, every number below the size of the table is that of a word, and other texts are not
known. This is so exactly when no word is in the table twice (`Loaded.bijective_iff_nodup`). ARPA
text with a word twice is refused. A binary file with a word twice is accepted, and then the word
has the number of its last place, even when it is the unknown word.
-/

namespace BackoffLM

namespace Vocabulary

/-- Words and numbers lead to each other, and all other texts to the unknown word. -/
structure Bijective (v : Vocabulary) : Prop where
  idOf_unknown : v.idOf unknownToken = unknownId
  exists_word : ∀ id < v.size, ∃ word, v.word? id = some word ∧ v.idOf word = id
  absent : ∀ word, word ∉ v.words → v.idOf word = unknownId ∧ v.contains word = false

/-- Words that lead to their numbers are distinct. -/
theorem Bijective.nodup {v : Vocabulary} (hv : v.Bijective) : v.words.toList.Nodup := by
  refine nodup_of_idOf_eq fun {word id} h => ?_
  obtain ⟨hid, -⟩ := Array.getElem?_eq_some_iff.mp h
  obtain ⟨word', hword', hnumber⟩ := hv.exists_word id hid
  rw [h, Option.some.injEq] at hword'
  rw [hword', hnumber]

end Vocabulary

namespace Model

variable {kind : Kind} {m : Model kind.Index}

/-- A text that is not in the table is not known. -/
theorem Loaded.absent (h : m.Loaded) (word : String) (hword : word ∉ m.vocabulary.words) :
    m.vocabulary.idOf word = unknownId ∧ m.vocabulary.contains word = false := by
  refine ⟨h.byLastPlace.idOf_of_notMem hword, Bool.eq_false_iff.mpr ?_⟩
  rwa [ne_eq, h.byLastPlace.contains_iff]

/-- Distinct words lead to their numbers. -/
theorem Loaded.bijective (h : m.Loaded) (hnodup : m.vocabulary.words.toList.Nodup) :
    m.vocabulary.Bijective := by
  have hnumbered := h.byLastPlace.numbered hnodup
  refine ⟨hnumbered.idOf_eq h.unknown_first, fun id hid => ?_, h.absent⟩
  have hword : m.vocabulary.word? id = some m.vocabulary.words[id] := Array.getElem?_eq_getElem hid
  exact ⟨_, hword, hnumbered.idOf_eq hword⟩

/-- Words and numbers of a loaded model lead to each other exactly when no word is there twice, as
is always so in a model of ARPA text. In any case a number below the size of the table is that of a
word, whose own number is its last place, and a text that is not in the table is not known. -/
theorem Loaded.bijective_iff_nodup (h : m.Loaded) :
    (m.vocabulary.Bijective ↔ m.vocabulary.words.toList.Nodup) ∧
      (∀ (bytes : List UInt8) (atMost : Option Nat) (a : Arpa) (bits : Nat),
        Arpa.ofBytes bytes atMost = .ok a → m = ofArpa bits a → m.vocabulary.Bijective) ∧
      (∀ id < m.vocabulary.size, ∃ word, m.vocabulary.word? id = some word ∧
        m.vocabulary.word? (m.vocabulary.idOf word) = some word ∧ id ≤ m.vocabulary.idOf word) ∧
      ∀ word, word ∉ m.vocabulary.words →
        m.vocabulary.idOf word = unknownId ∧ m.vocabulary.contains word = false := by
  refine ⟨⟨Vocabulary.Bijective.nodup, h.bijective⟩, ?_, fun id hid => ?_, h.absent⟩
  · rintro bytes atMost a bits ha rfl
    exact h.bijective (Arpa.ofBytes_wellFormed ha).numbered.nodup
  · have hword : m.vocabulary.word? id = some m.vocabulary.words[id] :=
      Array.getElem?_eq_getElem hid
    exact ⟨_, hword, h.byLastPlace.word?_idOf (Array.getElem_mem hid), h.byLastPlace.le_idOf hword⟩

/-! ## A file with a word twice -/

/-- The small file as a hash table over a table of words whose last word is the unknown word
again. -/
def doubledModel : Model Kind.probing.Index :=
  ⟨.ofList [unknownToken, "<s>", "a", unknownToken], StoredIndex.build 8 Arpa.sampleArpa⟩

/-- The model is read from its binary file. -/
theorem loaded_doubledModel : doubledModel.Loaded := by
  have hwf := Arpa.ofBytes_wellFormed Arpa.ofBytes_sample
  have hwords : doubledModel.vocabulary.words = #[unknownToken, "<s>", "a", unknownToken] :=
    Vocabulary.words_ofList _
  have hlist : Vocabulary.ofList doubledModel.vocabulary.words.toList =
      doubledModel.vocabulary := by
    rw [hwords]
    rfl
  have hsize : Arpa.sampleArpa.unigrams.size = doubledModel.vocabulary.size := by
    rw [Vocabulary.size, hwords]
    rfl
  -- The words of a file need not be those that its search structure was built from.
  refine .binary (ofBinary_toBytes_of_storedFrom hwf
    (storedFrom_ofArpa .probing (by decide) hwf (by decide)) (by decide +kernel) hsize hlist ?_)
  rw [hwords]
  rfl

/-- The unknown word has the number 3 in it, which is not that of the unknown word. -/
theorem bijective_iff_nodup_doubled :
    doubledModel.Loaded ∧ ¬ doubledModel.vocabulary.Bijective ∧
      doubledModel.vocabulary.idOf unknownToken = 3 := by
  have hwords : doubledModel.vocabulary.words = #[unknownToken, "<s>", "a", unknownToken] :=
    Vocabulary.words_ofList _
  have hsize : doubledModel.vocabulary.size = 4 := by
    rw [Vocabulary.size, hwords]
    rfl
  obtain ⟨hiff, -, hlast, -⟩ := loaded_doubledModel.bijective_iff_nodup
  refine ⟨loaded_doubledModel, ?_, ?_⟩
  · rw [hiff, hwords]
    decide
  · -- The last place of the unknown word is 3, and no word has a number above it.
    obtain ⟨word, hword, -, hle⟩ := hlast 3 (by omega)
    rw [Vocabulary.word?, hwords] at hword
    have hlt := loaded_doubledModel.idOf_lt unknownToken
    rw [hsize] at hlt
    rw [← Option.some.inj hword] at hle
    exact Nat.le_antisymm (Nat.le_of_lt_succ hlt) hle

end Model

end BackoffLM

import BackoffLM.Ngram
import Std.Data.HashMap

/-!
# Vocabularies

A vocabulary numbers words in the order in which they were added. A word that was added twice has
its last number; a word that was never added has the number of `<unk>`.
-/

namespace BackoffLM

/-- Words in the order of their numbers, and the number of each. -/
structure Vocabulary where
  words : Array String
  ids : Std.HashMap String WordId

namespace Vocabulary

/-- No words. -/
def empty : Vocabulary := ⟨#[], ∅⟩

instance : Inhabited Vocabulary := ⟨empty⟩

/-- Adds a word under the next number. -/
def push (v : Vocabulary) (word : String) : Vocabulary :=
  ⟨v.words.push word, v.ids.insert word v.words.size⟩

/-- The vocabulary of words given in the order of their numbers. -/
def ofList (words : List String) : Vocabulary := words.foldl push empty

/-- The number of a word. -/
def idOf (v : Vocabulary) (word : String) : WordId := v.ids.getD word unknownId

/-- Whether a word was added. -/
def contains (v : Vocabulary) (word : String) : Bool := v.ids.contains word

/-- The word with a number. -/
def word? (v : Vocabulary) (id : WordId) : Option String := v.words[id]?

/-- The number of words added. -/
def size (v : Vocabulary) : Nat := v.words.size

/-- The number of `<s>`. -/
def beginId (v : Vocabulary) : WordId := v.idOf beginToken

/-- The number of `</s>`. -/
def endId (v : Vocabulary) : WordId := v.idOf endToken

end Vocabulary

end BackoffLM

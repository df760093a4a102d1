import BackoffLM.Container
import BackoffLM.Index.Probing
import BackoffLM.Index.Trie
import BackoffLM.Model

/-!
# Models in binary files

The payload of a binary file is the vocabulary and then the search structure. `Model.toBytes` writes
the file of a model. `Model.ofBinary` reads one of the structure's kind, and refuses a payload that
cannot be searched, or that disagrees with the header on the order, the numbers of n-grams or the
number of words.
-/

namespace BackoffLM.Model

variable {S : Type} [StoredIndex S]

/-- The vocabulary in the order of its numbers, then the search structure. -/
def payloadCodec : Codec (Array String × S) := (Codec.seq .text).pair StoredIndex.codec

/-- The payload of a model. -/
def payload (m : Model S) : List UInt8 := payloadCodec.encode (m.vocabulary.words, m.index)

/-- The header of a model's file. -/
def header (m : Model S) : Header :=
  let payload := m.payload
  { version := Header.currentVersion
    kindCode := (StoredIndex.kind S).code
    order := UInt8.ofNat (NgramIndex.order m.index)
    checksum := Crc32.checksum payload
    payloadLength := UInt64.ofNat payload.length
    counts := (StoredIndex.counts m.index).map UInt64.ofNat }

/-- The bytes of a model's file. -/
def toBytes (m : Model S) : List UInt8 := m.header.encode ++ m.payload

/-- What a decoded payload must agree on with the header. -/
def checkPayload (header : Header) (words : Array String) (index : S) : Except Flaw Unit := do
  StoredIndex.validate index
  let order := NgramIndex.order index
  let counts := header.counts.map UInt64.toNat
  if order ≠ header.order.toNat then .error (.orderMismatch header.order.toNat order)
  else if StoredIndex.counts index ≠ counts then .error .countsMismatch
  else if words.size ≠ counts.headD 0 then
    .error (.vocabularySize words.size (counts.headD 0))
  else if words[0]? ≠ some unknownToken then .error .unknownNotFirst
  else .ok ()

/-- The model in a binary file. -/
def ofBinary (file : BinaryFile) : Except LoadError (Model S) := do
  let kind := StoredIndex.kind S
  if file.header.kindCode ≠ kind.code then
    .error (.corrupt (.kindCode file.header.kindCode kind.name))
  else
    let ((words, index), _) ← (payloadCodec.decode file.payload).mapError .undecodable
    (checkPayload (S := S) file.header words index).mapError .corrupt
    .ok ⟨Vocabulary.ofList words.toList, index⟩

end BackoffLM.Model

namespace BackoffLM.LanguageModel

/-- The model in a binary file of a kind. -/
def ofBinary (kind : Kind) (file : BinaryFile) : Except LoadError LanguageModel :=
  match kind with
  | .probing => (Model.ofBinary (S := Probing) file).map Model.toLanguageModel
  | .trie => (Model.ofBinary (S := SortedTrie) file).map Model.toLanguageModel
  | .arrayTrie => (Model.ofBinary (S := ArrayTrie) file).map Model.toLanguageModel
  | .quantTrie => (Model.ofBinary (S := QuantTrie) file).map Model.toLanguageModel
  | .quantArrayTrie => (Model.ofBinary (S := QuantArrayTrie) file).map Model.toLanguageModel

end BackoffLM.LanguageModel

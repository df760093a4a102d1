import BackoffLM.Proofs.Files.Container
import BackoffLM.Proofs.Files.Stored
import BackoffLM.Proofs.Safety.Runs
import BackoffLM.Proofs.Scoring.Incremental

/-!
# Models are read back from their files

`ofBinary_toBytes` says that the model of every ARPA file that is read, stored in any of the five
kinds, is read back from its binary file as it was: with the same vocabulary and the same search
structure. The container is opened, as its header was made for the payload; the payload is decoded,
as its codec is faithful to what the builders make of a file; and every check is met
(`StoredFrom`). Numbers of words are words of 32 bits and the length of the payload is one of 64, as
the file format has them.
-/

namespace BackoffLM.Model

open Codec

/-- The search structure that is built from a file can be stored, in every kind. -/
theorem storedFrom_ofArpa (kind : Kind) {bits : Nat} (hbits : bits ≤ 8) {a : Arpa}
    (h : a.WellFormed) (hwords : ∀ e ∈ a.entries, ∀ word ∈ e.words, word < wordBound) :
    StoredFrom a (ofArpa bits a : Model kind.Index).index := by
  cases kind with
  | probing => exact Probing.storedFrom h
  | trie => exact Trie.storedFrom hbits h hwords
  | arrayTrie => exact Trie.storedFrom hbits h hwords
  | quantTrie => exact Trie.storedFrom hbits h hwords
  | quantArrayTrie => exact Trie.storedFrom hbits h hwords

section

variable {S : Type} [StoredIndex S] {a : Arpa} {m : Model S} (h : a.WellFormed)
  (hm : StoredFrom a m.index) (hlength : m.payload.length < lengthBound)

/-- The search structure is within the payload. -/
theorem length_encode_index_le (m : Model S) :
    (StoredIndex.codec.encode m.index).length ≤ m.payload.length :=
  length_encode_snd_le (Codec.seq .text) StoredIndex.codec (m.vocabulary.words, m.index)

include hm hlength

/-- The counts of the header are those of the search structure. -/
theorem counts_header : m.header.counts.map UInt64.toNat = StoredIndex.counts m.index := by
  show ((StoredIndex.counts m.index).map UInt64.ofNat).map UInt64.toNat = _
  rw [List.map_map]
  refine (List.map_congr_left fun n hn => ?_).trans (List.map_id _)
  have hcount : n < lengthBound :=
    calc n ≤ (StoredIndex.codec.encode m.index).length := hm.counts_le n hn
      _ ≤ m.payload.length := length_encode_index_le m
      _ < lengthBound := hlength
  exact UInt64.toNat_ofNat_of_lt' hcount

omit hm in
/-- The header has the length of the payload. -/
theorem payloadLength_header : m.payload.length = m.header.payloadLength.toNat :=
  (UInt64.toNat_ofNat_of_lt' hlength).symm

include h
omit hlength

/-- The order of the header is that of the file. -/
theorem order_header : m.header.order.toNat = a.ngrams.length + 1 := by
  have hmax : maxOrder < UInt8.size := by decide
  show (UInt8.ofNat (NgramIndex.order m.index)).toNat = _
  rw [hm.order_eq, h.order_eq]
  exact UInt8.toNat_ofNat_of_lt' (Nat.lt_of_le_of_lt h.order_le hmax)

/-- The header can be read. -/
theorem fits_header : m.header.Fits := by
  have horder := order_header h hm
  have hmax := h.order_le
  refine ⟨rfl, by omega, by omega, ?_⟩
  show ((StoredIndex.counts m.index).map UInt64.ofNat).length = _
  rw [List.length_map, hm.length_counts, horder]

include hlength

/-- The file is opened. -/
theorem ofBytes_toBytes : BinaryFile.ofBytes m.toBytes = .ok ⟨m.header, m.payload⟩ :=
  BinaryFile.ofBytes_encode (fits_header h hm) (payloadLength_header hlength) rfl

/-- The payload agrees with its own header. -/
theorem agrees_header (hsize : a.unigrams.size = m.vocabulary.size)
    (hunknown : m.vocabulary.words[0]? = some unknownToken) :
    Agrees m.header m.vocabulary.words m.index where
  validate_eq := hm.validate_eq
  order_eq := by rw [order_header h hm, hm.order_eq, h.order_eq]
  counts_eq := (counts_header hm hlength).symm
  size_words := by
    rw [counts_header hm hlength, hm.head_counts, hsize]
    rfl
  unknown_first := hunknown

omit h in
/-- The payload is decoded as it was. -/
theorem decode_payload :
    payloadCodec.decode m.payload = .ok ((m.vocabulary.words, m.index), []) := by
  have hwords : (Codec.seq .text).Faithful m.vocabulary.words :=
    Faithful.seq visible_text fun word _ => faithful_text word
  have hpayload := Faithful.pair (p := (m.vocabulary.words, m.index)) hwords hm.faithful hlength []
  rwa [List.append_nil] at hpayload

/-- A model that is stored is read back, when its vocabulary is that of its list of words. -/
theorem ofBinary_toBytes_of_storedFrom (hsize : a.unigrams.size = m.vocabulary.size)
    (hlist : Vocabulary.ofList m.vocabulary.words.toList = m.vocabulary)
    (hunknown : m.vocabulary.words[0]? = some unknownToken) :
    (BinaryFile.ofBytes m.toBytes >>= ofBinary) = .ok m := by
  rw [ofBytes_toBytes h hm hlength, ok_bind]
  exact ofBinary_eq_ok_iff.mpr ⟨rfl, _, _, decode_payload hm hlength,
    agrees_header h hm hlength hsize hunknown, hlist.symm⟩

end

/-- The model of a file, stored in whatever kind and at whatever width that settings may give to
quantized weights, is read back from its binary file with the same vocabulary and the same search
structure, and so scores every run as before. -/
theorem ofBinary_toBytes (kind : Kind) {bits : Nat} (hbits : bits ≤ 8) {bytes : List UInt8}
    {atMost : Option Nat} {a : Arpa} (h : Arpa.ofBytes bytes atMost = .ok a)
    (hwords : ∀ e ∈ a.entries, ∀ word ∈ e.words, word < wordBound)
    (hlength : (ofArpa bits a : Model kind.Index).payload.length < lengthBound) :
    (BinaryFile.ofBytes (ofArpa bits a : Model kind.Index).toBytes >>= ofBinary) =
      .ok (ofArpa bits a : Model kind.Index) := by
  have hwf := Arpa.ofBytes_wellFormed h
  obtain ⟨-, hunigrams, -⟩ := Arpa.ofBytes_sections h
  exact ofBinary_toBytes_of_storedFrom hwf (storedFrom_ofArpa kind hbits hwf hwords) hlength
    hwf.size_unigrams (Arpa.Lexicon.vocabulary_eq_ofList hunigrams)
    (Arpa.Lexicon.unknown_first hunigrams)

/-- The small file is stored as a hash table and read back. -/
theorem ofBinary_toBytes_sample :
    Arpa.ofBytes Arpa.sample none = .ok Arpa.sampleArpa ∧
      (BinaryFile.ofBytes (ofArpa 8 Arpa.sampleArpa : Model Kind.probing.Index).toBytes >>=
        ofBinary) = .ok (ofArpa 8 Arpa.sampleArpa : Model Kind.probing.Index) :=
  ⟨Arpa.ofBytes_sample,
    ofBinary_toBytes .probing (by decide) Arpa.ofBytes_sample (by decide) (by decide +kernel)⟩

end BackoffLM.Model

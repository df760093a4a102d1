import BackoffLM.Model.Binary
import BackoffLM.Proofs.Outcome
import Mathlib.Logic.Basic

/-!
# Which payloads are accepted

`Model.ofBinary_eq_ok_iff` says which models are read from a binary file: those whose vocabulary and
search structure its payload decodes to, when its header names their kind and the two agree with the
header (`Model.Agrees`).
-/

namespace BackoffLM.Model

variable {S : Type} [StoredIndex S]

/-- What a payload that is accepted has in common with the header of its file. -/
structure Agrees (header : Header) (words : Array String) (index : S) : Prop where
  validate_eq : StoredIndex.validate index = .ok ()
  order_eq : NgramIndex.order index = header.order.toNat
  counts_eq : StoredIndex.counts index = header.counts.map UInt64.toNat
  size_words : words.size = (header.counts.map UInt64.toNat).headD 0
  unknown_first : words[0]? = some unknownToken

/-- The checks of a payload are met exactly when it agrees with the header. -/
theorem checkPayload_eq_ok_iff {header : Header} {words : Array String} {index : S} :
    checkPayload header words index = .ok () ↔ Agrees header words index := by
  unfold checkPayload
  dsimp only
  rw [bind_eq_ok]
  simp only [ite_error_eq_ok, not_not]
  constructor
  · rintro ⟨⟨⟩, hvalidate, horder, hcounts, hsize, hunknown, -⟩
    exact ⟨hvalidate, horder, hcounts, hsize, hunknown⟩
  · rintro ⟨hvalidate, horder, hcounts, hsize, hunknown⟩
    exact ⟨(), hvalidate, horder, hcounts, hsize, hunknown, trivial⟩

/-- A model is read from a file exactly when the header names its kind and the payload is decoded to
words and the search structure, which agree with the header. -/
theorem ofBinary_eq_ok_iff {file : BinaryFile} {m : Model S} :
    ofBinary file = .ok m ↔ file.header.kindCode = (StoredIndex.kind S).code ∧
      ∃ words rest, payloadCodec.decode file.payload = .ok ((words, m.index), rest) ∧
        Agrees file.header words m.index ∧ m.vocabulary = .ofList words.toList := by
  unfold ofBinary
  dsimp only
  rw [ite_error_eq_ok, not_not]
  refine and_congr_right fun _ => ?_
  constructor
  · intro h
    obtain ⟨⟨⟨words, index⟩, rest⟩, hdecode, h⟩ := bind_eq_ok.mp h
    obtain ⟨⟨⟩, hcheck, h⟩ := bind_eq_ok.mp h
    rw [← Except.ok.inj h]
    exact ⟨words, rest, mapError_eq_ok.mp hdecode,
      checkPayload_eq_ok_iff.mp (mapError_eq_ok.mp hcheck), rfl⟩
  · rintro ⟨words, rest, hdecode, hagrees, hvocabulary⟩
    refine bind_eq_ok.mpr ⟨_, mapError_eq_ok.mpr hdecode, bind_eq_ok.mpr
      ⟨(), mapError_eq_ok.mpr (checkPayload_eq_ok_iff.mpr hagrees), ?_⟩⟩
    rw [← hvocabulary]

end BackoffLM.Model

import BackoffLM.Index.Values
import BackoffLM.Proofs.Quantization.Bins

/-!
# Codes for few weights

The weights of a level are `Small` for a width of codes when they are finite, there are no more of
them than codes, and one code fewer for those with a backoff, as zero has its own. Then every weight
comes back from its codes as the same number, whether plain or quantized weights were stored
(`QuantValues.get_ofWeights`).
-/

namespace BackoffLM

/-- Both weights are finite, and equal as numbers. -/
structure Weights.SameFinite (v w : Weights) : Prop where
  prob : v.prob.SameFinite w.prob
  backoff : v.backoff.SameFinite w.backoff

/-- Finite weights that codes of a width tell apart. -/
structure Weights.Small (bits : Nat) (weights : List Weights) : Prop where
  finite : ∀ w ∈ weights, w.prob.isFinite = true ∧ w.backoff.isFinite = true
  length_le : weights.length ≤ 2 ^ bits
  backoffs_le : weights.countP (fun w => !w.backoff.numEq .zero) ≤ 2 ^ bits - 1

instance (bits : Nat) (weights : List Weights) : Decidable (Weights.Small bits weights) :=
  decidable_of_iff ((∀ w ∈ weights, w.prob.isFinite = true ∧ w.backoff.isFinite = true) ∧
      weights.length ≤ 2 ^ bits ∧
      weights.countP (fun w => !w.backoff.numEq .zero) ≤ 2 ^ bits - 1)
    ⟨fun h => ⟨h.1, h.2.1, h.2.2⟩, fun h => ⟨h.finite, h.length_le, h.backoffs_le⟩⟩

namespace QuantValues

open LogProb

/-- One more than a code is no code of zero when there are fewer than 256 values. -/
theorem code_add_one_ne {code : UInt8} (h : code.toNat < 255) : code + 1 ≠ 0 := by
  intro hzero
  have hnat := congrArg UInt8.toNat hzero
  rw [UInt8.toNat_add] at hnat
  simp at hnat
  omega

/-- What is read at a place is what its codes stand for. -/
theorem get_eq {v : QuantValues} {i : Nat} {codes : UInt8 × UInt8} (h : v.codes[i]? = some codes) :
    v.get i = ⟨v.prob.decode codes.1,
      if codes.2 = 0 then .zero else v.backoff.decode (codes.2 - 1)⟩ := by
  unfold get
  rw [Array.getD_eq_getD_getElem?, h]
  rfl

/-- The codes at a place are those of the weights that stood there. -/
theorem getElem?_codes_ofWeights (bits : Nat) {weights : List Weights} (hasBackoff : Bool) {i : Nat}
    (hi : i < weights.length) :
    (ofWeights bits weights hasBackoff).codes[i]? =
      some ((ofWeights bits weights hasBackoff).prob.encode weights[i].prob,
        backoffCode (ofWeights bits weights hasBackoff).backoff hasBackoff weights[i].backoff) := by
  show ((weights.map _).toArray)[i]? = _
  rw [List.getElem?_toArray, List.getElem?_map, List.getElem?_eq_getElem hi]
  rfl

section

variable {bits : Nat} (hbits : bits ≤ 8) {weights : List Weights} (h : Weights.Small bits weights)
include hbits h

/-- A log probability comes back from its code. -/
theorem decode_prob {w : Weights} (hw : w ∈ weights) :
    let bins := Bins.train (weights.map Weights.prob) (Numeral.pow2 bits)
    (bins.decode (bins.encode w.prob)).SameFinite w.prob := by
  have hcodes : 2 ^ bits ≤ 2 ^ 8 := Nat.pow_le_pow_right Nat.two_pos hbits
  have hfinite : ∀ value ∈ weights.map Weights.prob, value.isFinite = true := by
    intro value hvalue
    obtain ⟨v, hv, rfl⟩ := List.mem_map.mp hvalue
    exact (h.finite v hv).1
  have hlength : (weights.map Weights.prob).length ≤ 2 ^ bits := by
    rw [List.length_map]
    exact h.length_le
  exact Bins.decode_encode_train hfinite hlength (List.mem_map_of_mem hw)
    (Nat.le_trans hlength hcodes)

/-- A backoff comes back from its code, or is a zero and has the code of zero. -/
theorem decode_backoff {w : Weights} (hw : w ∈ weights) :
    let bins := Bins.train ((weights.map Weights.backoff).filter fun b => !b.numEq .zero)
      (Numeral.pow2 bits - 1)
    let code := backoffCode bins true w.backoff
    (if code = 0 then LogProb.zero else bins.decode (code - 1)).SameFinite w.backoff := by
  intro bins code
  have hcodes : 2 ^ bits ≤ 2 ^ 8 := Nat.pow_le_pow_right Nat.two_pos hbits
  have hbackoff := (h.finite w hw).2
  have hcode : code = if w.backoff.numEq .zero then 0 else bins.encode w.backoff + 1 := by
    simp only [code, backoffCode, Bool.not_true, Bool.false_or]
  by_cases hzero : w.backoff.numEq .zero = true
  · rw [hcode, if_pos hzero, if_pos rfl]
    exact ⟨rfl, hbackoff, ((numEq_iff hbackoff rfl).mp hzero).symm⟩
  · have hfinite : ∀ value ∈ (weights.map Weights.backoff).filter fun b => !b.numEq .zero,
        value.isFinite = true := by
      intro value hvalue
      obtain ⟨v, hv, rfl⟩ := List.mem_map.mp (List.mem_filter.mp hvalue).1
      exact (h.finite v hv).2
    have hlength : ((weights.map Weights.backoff).filter fun b => !b.numEq .zero).length ≤
        2 ^ bits - 1 := by
      rw [← List.countP_eq_length_filter, List.countP_map]
      exact h.backoffs_le
    have hmem : w.backoff ∈ (weights.map Weights.backoff).filter fun b => !b.numEq .zero :=
      List.mem_filter.mpr ⟨List.mem_map_of_mem hw, by simpa using hzero⟩
    have hlt : (bins.encode w.backoff).toNat < _ :=
      Bins.toNat_encode_train_lt hfinite hlength hmem (by omega)
    rw [hcode, if_neg hzero, if_neg (code_add_one_ne (by omega)), UInt8.add_sub_cancel]
    exact Bins.decode_encode_train hfinite hlength hmem (by omega)

/-- Few finite weights come back from their codes as the same numbers. -/
theorem get_ofWeights (hasBackoff : Bool) {i : Nat} (hi : i < weights.length) :
    ((ofWeights bits weights hasBackoff).get i).SameFinite
      (weights[i].keepBackoff hasBackoff) := by
  have hw := List.getElem_mem hi
  rw [get_eq (getElem?_codes_ofWeights bits hasBackoff hi)]
  refine ⟨?_, ?_⟩
  · rw [Weights.prob_keepBackoff]
    exact decode_prob hbits h hw
  · rw [Weights.backoff_keepBackoff]
    cases hasBackoff with
    | true => exact decode_backoff hbits h hw
    | false => exact .refl rfl

end

end QuantValues

end BackoffLM

import BackoffLM.Proofs.Floats.Extended
import BackoffLM.Proofs.Quantization.Values
import Mathlib.Data.Finset.Max

/-!
# Quantized weights stay in range

The nearest of some centres is one of them (`nearest_lt`), and each centre is the mean of a chunk of
the finite values. So if the mean of every chunk lies between the smallest and the largest value of
the chunk (`MeansWithin`), what a value is quantized to lies between the smallest and the largest of
all values, where one of them is finite (`within_decode_encode`). Where none is there is no centre,
and every value is quantized to zero (`decode_of_infinite`). `get_ofWeights_within` says so of both
weights of an n-gram.
-/

namespace BackoffLM

namespace LogProb

/-- The smallest and the largest of some values. -/
structure Extremes (values : List LogProb) (low high : LogProb) : Prop where
  low_mem : low ∈ values
  high_mem : high ∈ values
  bounds : ∀ value ∈ values, low.numLe value = true ∧ value.numLe high = true

/-- Between the smallest and the largest of some values. -/
def Within (values : List LogProb) (x : LogProb) : Prop :=
  ∃ low high, Extremes values low high ∧ low.numLe x = true ∧ x.numLe high = true

instance (values : List LogProb) (low high : LogProb) : Decidable (Extremes values low high) :=
  decidable_of_iff (low ∈ values ∧ high ∈ values ∧
      ∀ value ∈ values, low.numLe value = true ∧ value.numLe high = true)
    ⟨fun h => ⟨h.1, h.2.1, h.2.2⟩, fun h => ⟨h.low_mem, h.high_mem, h.bounds⟩⟩

instance (values : List LogProb) (x : LogProb) : Decidable (Within values x) :=
  decidable_of_iff (∃ low ∈ values, ∃ high ∈ values,
      Extremes values low high ∧ low.numLe x = true ∧ x.numLe high = true)
    ⟨fun ⟨low, _, high, _, h⟩ => ⟨low, high, h⟩,
      fun ⟨low, high, h⟩ => ⟨low, h.1.low_mem, high, h.1.high_mem, h⟩⟩

theorem numLe_trans {a b c : LogProb} (hab : a.numLe b = true) (hbc : b.numLe c = true) :
    a.numLe c = true := by
  obtain ⟨ha, -, hab⟩ := numLe_iff.mp hab
  obtain ⟨-, hc, hbc⟩ := numLe_iff.mp hbc
  exact numLe_iff.mpr ⟨ha, hc, hab.trans hbc⟩

section

variable {values : List LogProb} (hnumbers : ∀ value ∈ values, value.isNaN = false)
include hnumbers

/-- Some values, none of them a NaN, have a smallest and a largest. -/
theorem exists_extremes (hne : values ≠ []) : ∃ low high, Extremes values low high := by
  have hset : values.toFinset.Nonempty := (List.toFinset_nonempty_iff values).mpr hne
  obtain ⟨low, hlow, hleast⟩ := Finset.exists_min_image _ number hset
  obtain ⟨high, hhigh, hgreatest⟩ := Finset.exists_max_image _ number hset
  simp only [List.mem_toFinset] at hlow hleast hhigh hgreatest
  refine ⟨low, high, hlow, hhigh, fun value hvalue => ⟨?_, ?_⟩⟩
  · exact numLe_iff.mpr ⟨hnumbers low hlow, hnumbers value hvalue, hleast value hvalue⟩
  · exact numLe_iff.mpr ⟨hnumbers value hvalue, hnumbers high hhigh, hgreatest value hvalue⟩

/-- What is between some values is between more of them. -/
theorem Within.mono {part : List LogProb} {x : LogProb} (h : Within part x)
    (hpart : part ⊆ values) : Within values x := by
  obtain ⟨low, high, hextremes, hlow, hhigh⟩ := h
  have hlowmem := hpart hextremes.low_mem
  have hhighmem := hpart hextremes.high_mem
  obtain ⟨least, greatest, hall⟩ := exists_extremes hnumbers (List.ne_nil_of_mem hlowmem)
  exact ⟨least, greatest, hall, numLe_trans (hall.bounds low hlowmem).1 hlow,
    numLe_trans hhigh (hall.bounds high hhighmem).2⟩

end

end LogProb

open LogProb

namespace Bins

/-! ## Centres -/

/-- The mean of every chunk lies between the smallest and the largest value of the chunk. -/
def MeansWithin (values : List LogProb) (bins : Nat) : Prop :=
  ∀ chunk ∈ trainedChunks values bins, Within chunk (mean chunk)

section

variable {values : List LogProb} {bins : Nat}

/-- There is a centre exactly if there is a finite value, and a bin. -/
theorem size_train_pos_iff (hbins : 0 < bins) :
    0 < (train values bins).centers.size ↔ ∃ value ∈ values, value.isFinite = true := by
  have hchunks : trainedChunks values bins ≠ [] ↔ ∃ value ∈ values, value.isFinite = true := by
    rw [← List.length_pos_iff, length_trainedChunks, Nat.lt_min, List.countP_pos_iff]
    exact and_iff_right hbins
  rw [← hchunks, centers_train_eq, List.size_toArray, List.length_pos_iff]
  constructor
  · intro hcenters hnone
    rw [hnone] at hcenters
    exact hcenters rfl
  · intro hsome
    exact Trie.eraseRepsBy_ne_nil numEq (mt List.map_eq_nil_iff.mp hsome)

/-- Every centre lies between the smallest and the largest value. -/
theorem within_of_mem_centers (hnumbers : ∀ value ∈ values, value.isNaN = false)
    (hmeans : MeansWithin values bins) {center : LogProb}
    (h : center ∈ (train values bins).centers) : Within values center := by
  rw [centers_train_eq, List.mem_toArray] at h
  obtain ⟨chunk, hchunk, rfl⟩ := List.mem_map.mp ((Trie.eraseRepsBy_sublist numEq _).mem h)
  exact (hmeans chunk hchunk).mono hnumbers fun value hvalue =>
    (mem_of_mem_trainedChunks hchunk value hvalue).1

end

/-! ## Codes -/

/-- The nearest of some centres is one of them, whatever the value is. -/
theorem nearest_lt {b : Bins} (h : 0 < b.centers.size) (value : LogProb) :
    b.nearest value < b.centers.size := by
  have hboundary := Bisect.boundary_le b.centers fun c => c.numLt value
  unfold nearest
  dsimp only
  split
  · exact h
  · rename_i below hbelow
    rw [hbelow] at hboundary
    split
    · rename_i hhigh
      have hlt := (Array.getElem?_eq_some_iff.mp hhigh).1
      split <;> omega
    · omega

/-- The nearest centre is the first that is not below the value, or the one before it. -/
theorem nearest_bounds (b : Bins) (value : LogProb) :
    b.nearest value ≤ Bisect.boundary b.centers (fun c => c.numLt value) ∧
      Bisect.boundary b.centers (fun c => c.numLt value) ≤ b.nearest value + 1 := by
  unfold nearest
  dsimp only
  split
  · rename_i hboundary
    omega
  · rename_i below hboundary
    split
    · split <;> omega
    · omega

/-- With at most 256 centres the code of a value is the place of the nearest. -/
theorem toNat_encode {b : Bins} (hsize : b.centers.size ≤ 256) (value : LogProb) :
    (b.encode value).toNat = b.nearest value := by
  refine UInt8.toNat_ofNat_of_lt' (show b.nearest value < 256 from ?_)
  rcases Nat.eq_zero_or_pos b.centers.size with hnone | hpos
  · have hboundary := Bisect.boundary_le b.centers fun c => c.numLt value
    have hnearest := (nearest_bounds b value).1
    omega
  · exact Nat.lt_of_lt_of_le (nearest_lt hpos value) hsize

section

variable {b : Bins} (hpos : 0 < b.centers.size) (hsize : b.centers.size ≤ 256)
include hpos hsize

/-- The code of a value is the place of a centre. -/
theorem toNat_encode_lt (value : LogProb) : (b.encode value).toNat < b.centers.size := by
  rw [toNat_encode hsize]
  exact nearest_lt hpos value

/-- The code of a value leads to a centre. -/
theorem decode_encode_mem (value : LogProb) : b.decode (b.encode value) ∈ b.centers := by
  have hlt := toNat_encode_lt hpos hsize value
  rw [decode_eq hlt]
  exact Array.getElem_mem hlt

end

section

variable {values : List LogProb} {bins : Nat} (hbins : 0 < bins)
include hbins

/-- What a value is quantized to lies between the smallest and the largest of those that the bins
were trained on, if one of these is finite. -/
theorem within_decode_encode (hsize : bins ≤ 256) (hnumbers : ∀ value ∈ values, value.isNaN = false)
    (hmeans : MeansWithin values bins) (hfinite : ∃ value ∈ values, value.isFinite = true)
    (value : LogProb) :
    Within values ((train values bins).decode ((train values bins).encode value)) :=
  within_of_mem_centers hnumbers hmeans (decode_encode_mem ((size_train_pos_iff hbins).mpr hfinite)
    ((size_train_le values bins).trans hsize) value)

/-- If none is finite, every code stands for zero. -/
theorem decode_of_infinite (hinfinite : ∀ value ∈ values, value.isFinite = false) (code : UInt8) :
    (train values bins).decode code = .zero := by
  have hnone : ¬ 0 < (train values bins).centers.size := by
    rw [size_train_pos_iff hbins]
    rintro ⟨value, hvalue, hfinite⟩
    exact absurd hfinite (by rw [hinfinite value hvalue]; exact Bool.false_ne_true)
  rw [decode, Array.getD_eq_getD_getElem?, Array.getElem?_eq_none (by omega), Option.getD_none]

end

end Bins

namespace QuantValues

/-- The backoffs that have centres. -/
def nonzeroBackoffs (weights : List Weights) : List LogProb :=
  (weights.map Weights.backoff).filter fun b => !b.numEq .zero

variable {bits : Nat} {weights : List Weights} {i : Nat}

theorem backoff_ofWeights (bits : Nat) (weights : List Weights) :
    (ofWeights bits weights true).backoff =
      Bins.train (nonzeroBackoffs weights) (2 ^ bits - 1) := rfl

/-- A log probability is quantized to the centre of its code. -/
theorem prob_get_ofWeights (bits : Nat) (hasBackoff : Bool) (hi : i < weights.length) :
    let bins := Bins.train (weights.map Weights.prob) (2 ^ bits)
    ((ofWeights bits weights hasBackoff).get i).prob =
      bins.decode (bins.encode weights[i].prob) := by
  rw [get_eq (getElem?_codes_ofWeights bits hasBackoff hi)]
  rfl

/-- A backoff that is not kept, or is zero, is quantized to zero. -/
theorem backoff_get_of_zero (bits : Nat) {hasBackoff : Bool} (hi : i < weights.length)
    (hzero : hasBackoff = false ∨ weights[i].backoff.numEq .zero = true) :
    ((ofWeights bits weights hasBackoff).get i).backoff = .zero := by
  have hcode : backoffCode (ofWeights bits weights hasBackoff).backoff hasBackoff
      weights[i].backoff = 0 := by
    refine if_pos ?_
    rcases hzero with hnone | hzero
    · rw [hnone]
      rfl
    · rw [hzero, Bool.or_true]
  rw [get_eq (getElem?_codes_ofWeights bits hasBackoff hi)]
  exact if_pos hcode

/-- Any other backoff has a code that is one more than that of its centre. -/
theorem backoff_get_of_ne_zero (bits : Nat) (hi : i < weights.length)
    (hne : weights[i].backoff.numEq .zero = false) :
    let bins := Bins.train (nonzeroBackoffs weights) (2 ^ bits - 1)
    let code := bins.encode weights[i].backoff
    ((ofWeights bits weights true).get i).backoff =
      if code + 1 = 0 then .zero else bins.decode code := by
  intro bins code
  have hcode : backoffCode (ofWeights bits weights true).backoff true weights[i].backoff =
      code + 1 := by
    refine if_neg ?_
    rw [hne]
    exact Bool.false_ne_true
  rw [get_eq (getElem?_codes_ofWeights bits true hi)]
  dsimp only
  rw [hcode, backoff_ofWeights, UInt8.add_sub_cancel]

/-- A backoff that is not zero is quantized to one between the smallest and the largest that is not
zero, if one of these is finite. -/
theorem within_backoff_get (hlow : 1 ≤ bits) (hhigh : bits ≤ 8)
    (hnumbers : ∀ w ∈ weights, w.backoff.isNaN = false)
    (hbackoffs : Bins.MeansWithin (nonzeroBackoffs weights) (2 ^ bits - 1))
    (hi : i < weights.length) (hne : weights[i].backoff.numEq .zero = false)
    (hfinite : ∃ x ∈ nonzeroBackoffs weights, x.isFinite = true) :
    Within (nonzeroBackoffs weights) ((ofWeights bits weights true).get i).backoff := by
  have htwo : 2 ^ 1 ≤ 2 ^ bits := Nat.pow_le_pow_right Nat.two_pos hlow
  have hcodes : 2 ^ bits ≤ 2 ^ 8 := Nat.pow_le_pow_right Nat.two_pos hhigh
  have hsize : 0 < (Bins.train (nonzeroBackoffs weights) (2 ^ bits - 1)).centers.size :=
    (Bins.size_train_pos_iff (by omega)).mpr hfinite
  have hle : (Bins.train (nonzeroBackoffs weights) (2 ^ bits - 1)).centers.size ≤ 2 ^ bits - 1 :=
    Bins.size_train_le _ _
  -- With fewer than 256 centres, one more than a code is not the code of zero.
  have hcode := Bins.toNat_encode_lt hsize (by omega) weights[i].backoff
  rw [backoff_get_of_ne_zero bits hi hne, if_neg (code_add_one_ne (by omega))]
  refine Bins.within_decode_encode (by omega) (by omega) ?_ hbackoffs hfinite _
  intro x hx
  obtain ⟨w, hw, rfl⟩ := List.mem_map.mp (List.mem_filter.mp hx).1
  exact hnumbers w hw

/-- Quantized weights stay in range. Take weights that are no NaN, and codes of at least one and at
most eight bits, and let the mean of every chunk of log probabilities, and of backoffs that are not
zero, lie between the smallest and the largest value of the chunk. Then each log probability is
quantized to one between the smallest and the largest, if one of them is finite; and each backoff to
zero if it is zero or no backoff is kept, and else to one between the smallest and the largest that
is not zero, if one of these is finite. What none of is finite is quantized to zero. -/
theorem get_ofWeights_within (hlow : 1 ≤ bits) (hhigh : bits ≤ 8)
    (hnumbers : ∀ w ∈ weights, w.prob.isNaN = false ∧ w.backoff.isNaN = false) (hasBackoff : Bool)
    (hprobs : Bins.MeansWithin (weights.map Weights.prob) (2 ^ bits))
    (hbackoffs : hasBackoff = true → Bins.MeansWithin (nonzeroBackoffs weights) (2 ^ bits - 1))
    (hi : i < weights.length) :
    let w := (ofWeights bits weights hasBackoff).get i
    ((∃ x ∈ weights.map Weights.prob, x.isFinite = true) →
        Within (weights.map Weights.prob) w.prob) ∧
      ((∀ x ∈ weights.map Weights.prob, x.isFinite = false) → w.prob = .zero) ∧
      ((hasBackoff = false ∨ weights[i].backoff.numEq .zero = true) → w.backoff = .zero) ∧
      ((hasBackoff = true ∧ weights[i].backoff.numEq .zero = false) →
        ((∃ x ∈ nonzeroBackoffs weights, x.isFinite = true) →
          Within (nonzeroBackoffs weights) w.backoff) ∧
        ((∀ x ∈ nonzeroBackoffs weights, x.isFinite = false) → w.backoff = .zero)) := by
  intro w
  have htwo : 2 ^ 1 ≤ 2 ^ bits := Nat.pow_le_pow_right Nat.two_pos hlow
  have hcodes : 2 ^ bits ≤ 2 ^ 8 := Nat.pow_le_pow_right Nat.two_pos hhigh
  have hprob := prob_get_ofWeights bits hasBackoff hi
  refine ⟨fun hfinite => ?_, fun hinfinite => ?_, backoff_get_of_zero bits hi, ?_⟩
  · show Within _ ((ofWeights bits weights hasBackoff).get i).prob
    rw [hprob]
    refine Bins.within_decode_encode (by omega) hcodes ?_ hprobs hfinite _
    exact List.forall_mem_map.mpr fun w hw => (hnumbers w hw).1
  · exact hprob.trans (Bins.decode_of_infinite (by omega) hinfinite _)
  · rintro ⟨rfl, hne⟩
    refine ⟨?_, fun hinfinite => ?_⟩
    · exact within_backoff_get hlow hhigh (fun w hw => (hnumbers w hw).2) (hbackoffs rfl) hi hne
    · refine (backoff_get_of_ne_zero bits hi hne).trans ?_
      rw [Bins.decode_of_infinite (by omega) hinfinite, ite_self]

/-- Where the only log probability is infinite, the n-gram becomes certain. -/
example : ((ofWeights 8 [⟨.negInfinity, .zero⟩] false).get 0).prob = .zero :=
  (prob_get_ofWeights 8 false (by decide)).trans
    (Bins.decode_of_infinite (by decide) (by decide) _)

/-- Weights whose log probabilities and backoffs are cut into chunks of one and of two values. -/
def sampleWeights : List Weights :=
  [⟨.negInfinity, ⟨0xBF800000⟩⟩, ⟨⟨0xC0400000⟩, ⟨0xBF000000⟩⟩, ⟨⟨0xC0000000⟩, .zero⟩,
    ⟨⟨0xBF800000⟩, ⟨0x7F800000⟩⟩]

/-- Their log probabilities in chunks. -/
theorem trainedChunks_probs :
    Bins.trainedChunks (sampleWeights.map Weights.prob) (2 ^ 1) =
      [[⟨0xC0400000⟩], [⟨0xC0000000⟩, ⟨0xBF800000⟩]] := by
  have hsorted : Bins.sorted (sampleWeights.map Weights.prob) =
      [⟨0xC0400000⟩, ⟨0xC0000000⟩, ⟨0xBF800000⟩] :=
    List.mergeSort_of_pairwise (by decide)
  rw [Bins.trainedChunks, hsorted]
  decide

/-- Their backoffs that are not zero in one chunk. -/
theorem trainedChunks_backoffs :
    Bins.trainedChunks (nonzeroBackoffs sampleWeights) (2 ^ 1 - 1) =
      [[⟨0xBF800000⟩, ⟨0xBF000000⟩]] := by
  have hsorted : Bins.sorted (nonzeroBackoffs sampleWeights) = [⟨0xBF800000⟩, ⟨0xBF000000⟩] :=
    List.mergeSort_of_pairwise (by decide +kernel)
  rw [Bins.trainedChunks, hsorted]
  decide

/-- With codes of one bit a log probability that is infinite is quantized to one in range, and so is
its backoff, to the mean of two. -/
theorem get_ofWeights_within_sample :
    (∀ w ∈ sampleWeights, w.prob.isNaN = false ∧ w.backoff.isNaN = false) ∧
      Bins.MeansWithin (sampleWeights.map Weights.prob) (2 ^ 1) ∧
      Bins.MeansWithin (nonzeroBackoffs sampleWeights) (2 ^ 1 - 1) ∧
      Within (sampleWeights.map Weights.prob) ((ofWeights 1 sampleWeights true).get 0).prob ∧
      Within (nonzeroBackoffs sampleWeights) ((ofWeights 1 sampleWeights true).get 0).backoff := by
  have hnumbers : ∀ w ∈ sampleWeights, w.prob.isNaN = false ∧ w.backoff.isNaN = false := by decide
  have hprobs : Bins.MeansWithin (sampleWeights.map Weights.prob) (2 ^ 1) := by
    unfold Bins.MeansWithin
    rw [trainedChunks_probs]
    decide +kernel
  have hbackoffs : Bins.MeansWithin (nonzeroBackoffs sampleWeights) (2 ^ 1 - 1) := by
    unfold Bins.MeansWithin
    rw [trainedChunks_backoffs]
    decide +kernel
  obtain ⟨hprob, -, -, hbackoff⟩ := get_ofWeights_within (by decide) (by decide) hnumbers true
    hprobs (fun _ => hbackoffs) (by decide : 0 < sampleWeights.length)
  exact ⟨hnumbers, hprobs, hbackoffs, hprob (by decide +kernel),
    (hbackoff (by decide +kernel)).1 (by decide +kernel)⟩

end QuantValues

end BackoffLM

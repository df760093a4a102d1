import BackoffLM.Index.Bins
import BackoffLM.Numeral.Power

/-!
# Weights of a trie level

`FloatValues` keeps the weights of a level as they are. `QuantValues` keeps one byte for each log
probability and one for each backoff weight: the code of a centre, where code 0 of a backoff is
zero itself and the others are one more than the code of their centre.
-/

namespace BackoffLM

/-- The weights of the n-grams of a level, by place. -/
class WeightStore (V : Type) where
  /-- Whether weights are approximated. -/
  quantized : Bool
  /-- Stores weights; without `hasBackoff`, as at the highest order, every backoff is zero. -/
  ofWeights : (bits : Nat) → List Weights → (hasBackoff : Bool) → V
  get : V → Nat → Weights
  size : V → Nat
  validate : V → Except Flaw Unit
  codec : Codec V

/-- Weights as they are. -/
structure FloatValues where
  weights : Array Weights
  deriving DecidableEq, Repr

instance : WeightStore FloatValues where
  quantized := false
  ofWeights _ weights hasBackoff := ⟨(weights.map (Weights.keepBackoff hasBackoff)).toArray⟩
  get v i := v.weights.getD i default
  size v := v.weights.size
  validate _ := .ok ()
  codec := (Codec.seq .weights).map (fun weights => ⟨weights⟩) FloatValues.weights

/-- Weights as codes. -/
structure QuantValues where
  prob : Bins
  backoff : Bins
  /-- The codes of each log probability and backoff. -/
  codes : Array (UInt8 × UInt8)
  deriving DecidableEq, Repr

namespace QuantValues

/-- The code of a backoff weight. -/
def backoffCode (bins : Bins) (hasBackoff : Bool) (backoff : LogProb) : UInt8 :=
  if !hasBackoff || backoff.numEq .zero then 0 else bins.encode backoff + 1

/-- Trains bins of `2 ^ bits` codes on weights, and encodes them. -/
def ofWeights (bits : Nat) (weights : List Weights) (hasBackoff : Bool) : QuantValues :=
  let bins := Numeral.pow2 bits
  let prob := Bins.train (weights.map Weights.prob) bins
  let backoff :=
    if hasBackoff then
      -- Zero has its own code, which leaves one code fewer for centres.
      Bins.train ((weights.map Weights.backoff).filter fun b => !b.numEq .zero) (bins - 1)
    else ⟨#[]⟩
  ⟨prob, backoff,
    (weights.map fun w => (prob.encode w.prob, backoffCode backoff hasBackoff w.backoff)).toArray⟩

/-- The weights at a place. -/
def get (v : QuantValues) (i : Nat) : Weights :=
  let (prob, backoff) := v.codes.getD i (0, 0)
  ⟨v.prob.decode prob, if backoff = 0 then .zero else v.backoff.decode (backoff - 1)⟩

end QuantValues

instance : WeightStore QuantValues where
  quantized := true
  ofWeights := QuantValues.ofWeights
  get := QuantValues.get
  size v := v.codes.size
  validate v :=
    if 256 < v.prob.size ∨ 255 < v.backoff.size then .error .tooManyBins else .ok ()
  codec :=
    ((Bins.codec.pair Bins.codec).pair (.seq (Codec.byte.pair .byte))).map
      (fun p => ⟨p.1.1, p.1.2, p.2⟩) fun v => ((v.prob, v.backoff), v.codes)

end BackoffLM

import BackoffLM.Bisect
import BackoffLM.Codec

/-!
# Quantization bins

A set of values is approximated by a few centres. `train` sorts the finite values, cuts them into
chunks of nearly equal size, and takes the mean of each chunk; `encode` gives the place of the
centre nearest to a value, the lower one of two as near, and `decode` the centre at a place.
-/

namespace BackoffLM

/-- The centres of bins, in increasing order. -/
structure Bins where
  centers : Array LogProb
  deriving DecidableEq, Repr, Inhabited

namespace Bins

/-- The finite values in increasing order. -/
def sorted (values : List LogProb) : List LogProb :=
  (values.filter LogProb.isFinite).mergeSort fun a b => a.rank ≤ b.rank

/-- Where chunk `b` of `count` chunks of `length` values starts. -/
def cut (length count b : Nat) : Nat := b * length / count

/-- Cuts values into `count` chunks whose sizes differ by at most one. -/
def chunks (values : List LogProb) (count : Nat) : List (List LogProb) :=
  (List.range count).map fun b =>
    let start := cut values.length count b
    (values.drop start).take (cut values.length count (b + 1) - start)

/-- The mean, added up from left to right in double precision. -/
def mean (chunk : List LogProb) : LogProb :=
  let sum := chunk.foldl (fun s x => s + x.toDouble) (-0.0)
  .ofDouble (sum / Float.ofNat chunk.length)

/-- At most `bins` centres for values. -/
def train (values : List LogProb) (bins : Nat) : Bins :=
  let values := sorted values
  let means := (chunks values (min bins values.length)).map mean
  ⟨(means.eraseRepsBy LogProb.numEq).toArray⟩

/-- The place of the centre nearest to a value. -/
def nearest (b : Bins) (value : LogProb) : Nat :=
  -- Only the last centre below the value and the first that is not can be the nearest.
  let above := Bisect.boundary b.centers fun c => c.numLt value
  match above with
  | 0 => 0
  | below + 1 =>
    match b.centers[below]?, b.centers[below + 1]? with
    | some low, some high => if (value - low).numLe (high - value) then below else below + 1
    | _, _ => below

/-- The code of a value. -/
def encode (b : Bins) (value : LogProb) : UInt8 := UInt8.ofNat (b.nearest value)

/-- The centre with a code, or zero when there is none. -/
def decode (b : Bins) (code : UInt8) : LogProb := b.centers.getD code.toNat .zero

/-- The number of centres. -/
def size (b : Bins) : Nat := b.centers.size

/-- The sequence of centres. -/
def codec : Codec Bins := (Codec.seq .logProb).map (fun centers => ⟨centers⟩) Bins.centers

end Bins

end BackoffLM

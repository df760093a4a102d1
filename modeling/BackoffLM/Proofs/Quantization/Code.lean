import BackoffLM.Proofs.Floats.Differences
import BackoffLM.Proofs.Quantization.Range

/-!
# Bins are an ordered code

Chunks of sorted values follow one another (`pairwise_trainedChunks`), and so do means that lie
between the values of their chunks. So the centres that bins are trained to are finite and increase
(`increasing_train_of_meansWithin`), with one zero at most among them. The place of the nearest
centre is the boundary between those below a value and the others, or the place before it, and a
greater value does not have a lesser place (`Increasing.nearest_mono`): where the boundary is the
same the greater value is farther from the centre below and nearer to the one above. Codes of bins
are in the order of what they stand for, and each is the code of what it stands for
(`orderedCode_train`).
-/

namespace BackoffLM.Bins

open LogProb

/-! ## Centres -/

/-- A value of a chunk is one of the values from where the chunk starts to where the next does. -/
theorem exists_getElem_of_mem_chunk {values : List LogProb} {start stop : Nat} {x : LogProb}
    (h : x ∈ (values.drop start).take (stop - start)) :
    ∃ i, ∃ hi : i < values.length, start ≤ i ∧ i < stop ∧ values[i] = x := by
  obtain ⟨k, hk, rfl⟩ := List.getElem_of_mem h
  rw [List.length_take, List.length_drop] at hk
  refine ⟨start + k, by omega, Nat.le_add_right _ _, by omega, ?_⟩
  rw [List.getElem_take, List.getElem_drop]

/-- Chunks start no earlier than those before them. -/
theorem cut_mono (length count : Nat) {b b' : Nat} (h : b ≤ b') :
    cut length count b ≤ cut length count b' :=
  Nat.div_le_div_right (Nat.mul_le_mul_right length h)

/-- What relates values to all later ones relates those of a chunk to those of later chunks. -/
theorem pairwise_chunks {r : LogProb → LogProb → Prop} {values : List LogProb}
    (h : values.Pairwise r) (count : Nat) :
    (chunks values count).Pairwise fun c d => ∀ x ∈ c, ∀ y ∈ d, r x y := by
  refine List.pairwise_map.mpr (List.pairwise_lt_range.imp fun {b b'} hb x hx y hy => ?_)
  obtain ⟨i, hi, -, hstop, rfl⟩ := exists_getElem_of_mem_chunk hx
  obtain ⟨j, hj, hstart, -, rfl⟩ := exists_getElem_of_mem_chunk hy
  have hcut := cut_mono values.length count (Nat.succ_le_of_lt hb)
  exact List.pairwise_iff_getElem.mp h i j hi hj
    (Nat.lt_of_lt_of_le hstop (hcut.trans hstart))

section

variable {values : List LogProb} {bins : Nat}

/-- Chunks that centres are trained on follow one another. -/
theorem pairwise_trainedChunks (values : List LogProb) (bins : Nat) :
    (trainedChunks values bins).Pairwise fun c d => ∀ x ∈ c, ∀ y ∈ d, x.number ≤ y.number :=
  pairwise_chunks (pairwise_sorted values) _

variable (hmeans : MeansWithin values bins)
include hmeans

/-- The mean of a chunk is finite, and between two of its values. -/
theorem exists_mean_bounds {chunk : List LogProb} (h : chunk ∈ trainedChunks values bins) :
    (mean chunk).isFinite = true ∧ ∃ low ∈ chunk, ∃ high ∈ chunk,
      low.number ≤ (mean chunk).number ∧ (mean chunk).number ≤ high.number := by
  have hfinite : ∀ x ∈ chunk, x.isFinite = true := fun x hx =>
    (mem_of_mem_trainedChunks h x hx).2
  obtain ⟨low, high, hextremes, hlow, hhigh⟩ := hmeans chunk h
  obtain ⟨-, hnan, hlow⟩ := numLe_iff.mp hlow
  obtain ⟨-, -, hhigh⟩ := numLe_iff.mp hhigh
  exact ⟨isFinite_of_between (hfinite low hextremes.low_mem) (hfinite high hextremes.high_mem)
    hnan hlow hhigh, low, hextremes.low_mem, high, hextremes.high_mem, hlow, hhigh⟩

/-- Means that lie between the values of their chunks make centres that increase. -/
theorem increasing_train_of_meansWithin : (train values bins).Increasing := by
  refine increasing_eraseRepsBy (List.forall_mem_map.mpr fun chunk hchunk =>
    (exists_mean_bounds hmeans hchunk).1) (List.pairwise_map.mpr ?_)
  refine (pairwise_trainedChunks values bins).imp_of_mem fun {c d} hc hd hcd => ?_
  obtain ⟨-, -, -, high, hhigh, -, hle⟩ := exists_mean_bounds hmeans hc
  obtain ⟨-, low, hlow, -, -, hge, -⟩ := exists_mean_bounds hmeans hd
  calc (mean c).number ≤ high.number := hle
    _ ≤ low.number := hcd high hhigh low hlow
    _ ≤ (mean d).number := hge

end

/-! ## Codes -/

section

variable {b : Bins} (hb : b.Increasing)
include hb

/-- A greater value has no fewer centres below it. -/
theorem Increasing.boundary_mono {x y : LogProb} (hx : x.isNaN = false) (hy : y.isNaN = false)
    (h : x.number ≤ y.number) :
    Bisect.boundary b.centers (fun c => c.numLt x) ≤
      Bisect.boundary b.centers (fun c => c.numLt y) := by
  by_contra hgt
  rw [Nat.not_le] at hgt
  have hsize := Nat.lt_of_lt_of_le hgt (Bisect.boundary_le b.centers fun c => c.numLt x)
  have hbelow := (hb.lt_boundary_iff hx hsize).mp hgt
  exact absurd ((hb.lt_boundary_iff hy hsize).mpr (hbelow.trans_le h)) (lt_irrefl _)

/-- Between two centres the lower one is not left for a lesser value. -/
theorem Increasing.numLe_sub_of_le {x y : LogProb} (hx : x.isNaN = false) (hy : y.isNaN = false)
    (h : x.number ≤ y.number) {i : Nat} (hi : i + 1 < b.centers.size)
    (hlow : b.centers[i].number ≤ x.number) (hhigh : y.number ≤ b.centers[i + 1].number)
    (hnear : (y - b.centers[i]).numLe (b.centers[i + 1] - y) = true) :
    (x - b.centers[i]).numLe (b.centers[i + 1] - x) = true := by
  have hlow' := hb.finite _ (Array.getElem_mem (Nat.lt_of_succ_lt hi))
  have hhigh' := hb.finite _ (Array.getElem_mem hi)
  have hx' := isFinite_of_between hlow' hhigh' hx hlow (h.trans hhigh)
  have hy' := isFinite_of_between hlow' hhigh' hy (hlow.trans h) hhigh
  -- The lesser value is no farther from the centre below, and no nearer to the one above.
  have hbelow := numLe_sub hx' hy' hlow' hlow' h le_rfl
  have habove := numLe_sub hhigh' hhigh' hy' hx' le_rfl h
  exact numLe_trans hbelow (numLe_trans hnear habove)

/-- A greater value has no nearest centre before that of a lesser one. -/
theorem Increasing.nearest_mono {x y : LogProb} (h : x.numLe y = true) :
    b.nearest x ≤ b.nearest y := by
  obtain ⟨hx, hy, hle⟩ := numLe_iff.mp h
  obtain ⟨hnearest, -⟩ := nearest_bounds b x
  obtain ⟨-, hnearest'⟩ := nearest_bounds b y
  rcases Nat.lt_or_eq_of_le (hb.boundary_mono hx hy hle) with hlt | heq
  · -- The lesser value's is at most at its boundary, and the other just before its own.
    omega
  · unfold nearest
    dsimp only
    rw [← heq]
    split
    · exact le_rfl
    · rename_i below hboundary
      split
      · -- Both values are between the same two centres.
        rename_i low high hlow hhigh
        obtain ⟨hi, rfl⟩ := Array.getElem?_eq_some_iff.mp hlow
        obtain ⟨hi', rfl⟩ := Array.getElem?_eq_some_iff.mp hhigh
        have hbelow := (hb.lt_boundary_iff hx hi).mp (by omega)
        have habove := (hb.lt_boundary_iff hy hi').not.mp (by omega)
        have hnear := hb.numLe_sub_of_le hx hy hle hi' hbelow.le (not_lt.mp habove)
        by_cases hlower : (y - b.centers[below]).numLe (b.centers[below + 1] - y) = true
        · rw [if_pos hlower, if_pos (hnear hlower)]
        · rw [if_neg hlower]
          split <;> omega
      · exact le_rfl

end

/-- Bins whose codes are in the order of the values that they stand for. -/
structure OrderedCode (b : Bins) : Prop where
  /-- What codes stand for is finite. -/
  finite : ∀ center ∈ b.centers, center.isFinite = true
  /-- What a greater code stands for is greater. -/
  increasing : b.centers.toList.Pairwise fun x y => x.numLt y = true
  /-- If there is any centre every value has the code of one, whether a number or not. -/
  encode_lt : 0 < b.size → ∀ value, (b.encode value).toNat < b.size
  /-- Each code is that of what it stands for. -/
  encode_decode : ∀ code : UInt8, code.toNat < b.size → b.encode (b.decode code) = code
  /-- A greater number does not have a lesser code. -/
  encode_mono : ∀ x y : LogProb, x.numLe y = true → b.encode x ≤ b.encode y

/-- At most 256 centres that increase are an ordered code. -/
theorem Increasing.orderedCode {b : Bins} (hb : b.Increasing) (hsize : b.size ≤ 256) :
    b.OrderedCode where
  finite := hb.finite
  increasing := hb.increasing.imp_of_mem fun hx hy hlt =>
    (numLt_iff (hb.finite _ (Array.mem_toList_iff.mp hx))
      (hb.finite _ (Array.mem_toList_iff.mp hy))).mpr hlt
  encode_lt hpos value := toNat_encode_lt hpos hsize value
  encode_decode code hcode := by
    rw [decode_eq hcode, encode, hb.nearest_eq (hb.finite _ (Array.getElem_mem hcode)) hcode rfl,
      UInt8.ofNat_toNat]
  encode_mono x y h := by
    rw [UInt8.le_iff_toNat_le, toNat_encode hsize x, toNat_encode hsize y]
    exact hb.nearest_mono h

/-- Bins are an ordered code. Train from 1 to 256 of them on any values, and let the mean of every
chunk lie between the smallest and the largest value of the chunk. Then the centres are finite and
increase, and there are at most as many as bins, and at least one if some value is finite; every
value has the code of a centre, each code is that of its centre, and a greater number does not have
a lesser code. -/
theorem orderedCode_train {values : List LogProb} {bins : Nat} (hbins : 1 ≤ bins)
    (hcodes : bins ≤ 256) (hmeans : MeansWithin values bins) :
    (train values bins).OrderedCode ∧ (train values bins).size ≤ bins ∧
      ((∃ value ∈ values, value.isFinite = true) → 0 < (train values bins).size) := by
  have hsize := size_train_le values bins
  exact ⟨(increasing_train_of_meansWithin hmeans).orderedCode (hsize.trans hcodes), hsize,
    (size_train_pos_iff hbins).mpr⟩

/-- An infinity, five times one number, another, both zeros and a NaN. -/
def sampleValues : List LogProb :=
  [.negInfinity, ⟨0xC0000000⟩, ⟨0xC0000000⟩, ⟨0xC0000000⟩, ⟨0xC0000000⟩, ⟨0xC0000000⟩,
    ⟨0xBF800000⟩, ⟨0x80000000⟩, .zero, ⟨0x7FC00000⟩]

/-- The finite ones in four chunks, the first two alike. -/
theorem trainedChunks_sampleValues :
    trainedChunks sampleValues 4 =
      [[⟨0xC0000000⟩, ⟨0xC0000000⟩], [⟨0xC0000000⟩, ⟨0xC0000000⟩], [⟨0xC0000000⟩, ⟨0xBF800000⟩],
        [⟨0x80000000⟩, .zero]] := by
  have hsorted : sorted sampleValues =
      [⟨0xC0000000⟩, ⟨0xC0000000⟩, ⟨0xC0000000⟩, ⟨0xC0000000⟩, ⟨0xC0000000⟩, ⟨0xBF800000⟩,
        ⟨0x80000000⟩, .zero] :=
    List.mergeSort_of_pairwise (by decide)
  rw [trainedChunks, hsorted]
  decide

/-- Four bins for them are an ordered code. -/
theorem orderedCode_train_sampleValues :
    MeansWithin sampleValues 4 ∧ (train sampleValues 4).OrderedCode ∧
      0 < (train sampleValues 4).size ∧ (train sampleValues 4).size ≤ 4 := by
  have hmeans : MeansWithin sampleValues 4 := by
    unfold MeansWithin
    rw [trainedChunks_sampleValues]
    decide +kernel
  obtain ⟨hcode, hsize, hpos⟩ := orderedCode_train (by decide) (by decide) hmeans
  exact ⟨hmeans, hcode, hpos (by decide), hsize⟩

end BackoffLM.Bins

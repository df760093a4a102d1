import BackoffLM.Proofs.Bisect
import BackoffLM.Proofs.Floats.Arithmetic
import BackoffLM.Proofs.Floats.Extended
import BackoffLM.Proofs.Floats.Mean
import BackoffLM.Proofs.Trie.Sorting

/-!
# Bins for few values

Where there are no more values than bins, every chunk of the sorted values is one of them, so the
centres are the values themselves, one of those that are equal as numbers (`centers_train`). They
increase, so the centre nearest to a value is the one that is equal to it (`nearest_eq`), and its
code leads back to it: training, encoding and decoding change a value at most from one zero to the
other (`decode_encode_train`).
-/

namespace BackoffLM.Bins

open LogProb

/-! ## Training -/

/-- The chunks of the values that centres are trained on. -/
def trainedChunks (values : List LogProb) (bins : Nat) : List (List LogProb) :=
  chunks (sorted values) (min bins (sorted values).length)

/-- The centres are the means of the chunks, without those that repeat a number. -/
theorem centers_train_eq (values : List LogProb) (bins : Nat) :
    (train values bins).centers =
      (((trainedChunks values bins).map mean).eraseRepsBy numEq).toArray := rfl

/-- Sorting keeps the finite values. -/
theorem mem_sorted_iff {values : List LogProb} {value : LogProb} :
    value ∈ sorted values ↔ value ∈ values ∧ value.isFinite = true :=
  (List.mergeSort_perm _ _).mem_iff.trans List.mem_filter

/-- The values of a chunk are among the finite ones. -/
theorem mem_of_mem_trainedChunks {values chunk : List LogProb} {bins : Nat}
    (h : chunk ∈ trainedChunks values bins) :
    ∀ value ∈ chunk, value ∈ values ∧ value.isFinite = true := by
  obtain ⟨b, -, rfl⟩ := List.mem_map.mp h
  intro value hvalue
  exact mem_sorted_iff.mp (List.drop_subset _ _ (List.take_subset _ _ hvalue))

/-- There are as many chunks as bins, or as finite values if these are fewer. -/
theorem length_trainedChunks (values : List LogProb) (bins : Nat) :
    (trainedChunks values bins).length = min bins (values.countP isFinite) := by
  rw [trainedChunks, chunks, List.length_map, List.length_range, sorted, List.length_mergeSort,
    List.countP_eq_length_filter]

/-- Training gives no more centres than it is asked for. -/
theorem size_train_le (values : List LogProb) (bins : Nat) : (train values bins).size ≤ bins := by
  rw [size, centers_train_eq, List.size_toArray]
  refine (Trie.eraseRepsBy_sublist numEq _).length_le.trans ?_
  rw [List.length_map, length_trainedChunks]
  exact Nat.min_le_left _ _

/-- Cutting values into as many chunks as there are gives each its own. -/
theorem chunks_length (values : List LogProb) :
    chunks values values.length = values.map fun value => [value] := by
  refine List.ext_getElem (by simp [chunks]) fun b hb hb' => ?_
  have hlt : b < values.length := by simpa [chunks] using hb
  have hcut : ∀ c, cut values.length values.length c = c := fun c =>
    Nat.mul_div_cancel c (Nat.zero_lt_of_lt hlt)
  simp only [chunks, List.getElem_map, List.getElem_range, hcut, Nat.add_sub_cancel_left]
  rw [List.drop_eq_getElem_cons hlt, List.take_succ_cons, List.take_zero]

section

variable {values : List LogProb} (hfinite : ∀ value ∈ values, value.isFinite = true)
include hfinite

theorem sorted_perm : (sorted values).Perm values := by
  unfold sorted
  rw [List.filter_eq_self.mpr hfinite]
  exact List.mergeSort_perm values _

/-- The centres for few values are these values, without those that repeat a number. -/
theorem centers_train {bins : Nat} (hbins : values.length ≤ bins) :
    (train values bins).centers = ((sorted values).eraseRepsBy numEq).toArray := by
  have hlength : (sorted values).length = values.length := (sorted_perm hfinite).length_eq
  have hmeans : (chunks (sorted values) (sorted values).length).map mean = sorted values := by
    rw [chunks_length, List.map_map]
    refine (List.map_congr_left fun value hvalue => ?_).trans (List.map_id _)
    exact mean_singleton (hfinite value ((sorted_perm hfinite).mem_iff.mp hvalue))
  unfold train
  dsimp only
  rw [Nat.min_eq_right (hlength ▸ hbins), hmeans]

omit hfinite in
/-- Sorted values do not decrease as numbers. -/
theorem pairwise_sorted (values : List LogProb) :
    (sorted values).Pairwise fun a b => a.number ≤ b.number := by
  have htrans : ∀ a b c : LogProb, decide (a.rank ≤ b.rank) = true →
      decide (b.rank ≤ c.rank) = true → decide (a.rank ≤ c.rank) = true := by
    intro a b c hab hbc
    exact decide_eq_true (le_trans (of_decide_eq_true hab) (of_decide_eq_true hbc))
  have htotal : ∀ a b : LogProb, (decide (a.rank ≤ b.rank) || decide (b.rank ≤ a.rank)) = true := by
    intro a b
    rw [Bool.or_eq_true, decide_eq_true_iff, decide_eq_true_iff]
    exact le_total a.rank b.rank
  exact (List.pairwise_mergeSort htrans htotal _).imp fun hab =>
    number_le_of_rank_le (of_decide_eq_true hab)

end

/-! ## Encoding -/

/-- A code stands for the centre at its place. -/
theorem decode_eq {b : Bins} {code : UInt8} (h : code.toNat < b.centers.size) :
    b.decode code = b.centers[code.toNat] := by
  rw [decode, Array.getD_eq_getD_getElem?, Array.getElem?_eq_getElem h, Option.getD_some]

/-- Centres that are finite and increase as numbers. -/
structure Increasing (b : Bins) : Prop where
  finite : ∀ center ∈ b.centers, center.isFinite = true
  increasing : b.centers.toList.Pairwise fun x y => x.number < y.number

section

variable {b : Bins} (hb : b.Increasing)
include hb

/-- Centres increase with their places. -/
theorem Increasing.number_lt_iff {i j : Nat} (hi : i < b.centers.size) (hj : j < b.centers.size) :
    b.centers[i].number < b.centers[j].number ↔ i < j := by
  have hlt : ∀ {i j : Nat} (hi : i < b.centers.size) (hj : j < b.centers.size), i < j →
      b.centers[i].number < b.centers[j].number := fun hi hj hij =>
    List.pairwise_iff_getElem.mp hb.increasing _ _ hi hj hij
  refine ⟨fun hnumber => ?_, hlt hi hj⟩
  rcases lt_trichotomy i j with hij | rfl | hji
  · exact hij
  · exact absurd hnumber (lt_irrefl _)
  · exact absurd (hlt hj hi hji) (lt_asymm hnumber)

/-- The centres before the boundary are those below the value. -/
theorem Increasing.lt_boundary_iff {value : LogProb} (hvalue : value.isNaN = false) {i : Nat}
    (hi : i < b.centers.size) :
    i < Bisect.boundary b.centers (fun c => c.numLt value) ↔
      b.centers[i].number < value.number := by
  have hlt : ∀ i (hi : i < b.centers.size),
      b.centers[i].numLt value = true ↔ b.centers[i].number < value.number := fun i hi =>
    numLt_iff_of_not_isNaN (isNaN_of_isFinite (hb.finite _ (Array.getElem_mem hi))) hvalue
  rw [← hlt i hi]
  refine (Bisect.boundary_spec b.centers (fun c => c.numLt value) (fun i j hj hij => ?_) i hi).symm
  rw [hlt j hj, hlt i (Nat.lt_of_le_of_lt hij hj)]
  rcases Nat.eq_or_lt_of_le hij with rfl | hij
  · exact id
  · exact (((hb.number_lt_iff (hij.trans hj) hj).mpr hij).trans ·)

/-- The centre nearest to a value is the one that is equal to it. -/
theorem Increasing.nearest_eq {value : LogProb} (hvalue : value.isFinite = true) {j : Nat}
    (hj : j < b.centers.size) (hnumber : value.number = b.centers[j].number) :
    b.nearest value = j := by
  have hfinite : ∀ i (hi : i < b.centers.size), b.centers[i].isFinite = true := fun i hi =>
    hb.finite _ (Array.getElem_mem hi)
  have hboundary : Bisect.boundary b.centers (fun c => c.numLt value) = j := by
    have hspec : ∀ i < b.centers.size,
        i < Bisect.boundary b.centers (fun c => c.numLt value) ↔ i < j := fun i hi => by
      rw [hb.lt_boundary_iff (isNaN_of_isFinite hvalue) hi, hnumber, hb.number_lt_iff hi hj]
    have hle := Bisect.boundary_le b.centers fun c => c.numLt value
    generalize Bisect.boundary b.centers (fun c => c.numLt value) = boundary at hspec hle ⊢
    rcases lt_trichotomy boundary j with hlow | heq | hhigh
    · exact absurd ((hspec boundary (hlow.trans hj)).mpr hlow) (lt_irrefl _)
    · exact heq
    · exact absurd ((hspec j hj).mp hhigh) (lt_irrefl _)
  unfold nearest
  rw [hboundary]
  cases j with
  | zero => rfl
  | succ below =>
    -- The centre before is below the value, and the distance to it is not zero.
    have hbelow : below < b.centers.size := Nat.lt_of_succ_lt hj
    have hless : b.centers[below].number < value.number := by
      rw [hnumber, hb.number_lt_iff hbelow hj]
      exact Nat.lt_succ_self below
    dsimp only
    rw [Array.getElem?_eq_getElem hbelow, Array.getElem?_eq_getElem hj]
    dsimp only
    rw [not_numLe_sub (hfinite below hbelow) hvalue hless hnumber]
    rfl

end

/-- Finite centres that do not decrease do increase, without those that repeat a number. -/
theorem increasing_eraseRepsBy {l : List LogProb} (hfinite : ∀ x ∈ l, x.isFinite = true)
    (hsorted : l.Pairwise fun x y => x.number ≤ y.number) :
    Increasing ⟨(l.eraseRepsBy numEq).toArray⟩ where
  finite center hcenter :=
    hfinite center ((Trie.eraseRepsBy_sublist numEq l).mem (List.mem_toArray.mp hcenter))
  increasing := Trie.pairwise_eraseRepsBy numEq number
    (fun x hx y hy => numEq_iff (hfinite x hx) (hfinite y hy)) hsorted

/-- Few finite values have centres that increase. -/
theorem increasing_train {values : List LogProb}
    (hfinite : ∀ value ∈ values, value.isFinite = true) {bins : Nat}
    (hbins : values.length ≤ bins) : (train values bins).Increasing := by
  have htrain : train values bins = ⟨((sorted values).eraseRepsBy numEq).toArray⟩ :=
    congrArg Bins.mk (centers_train hfinite hbins)
  rw [htrain]
  refine increasing_eraseRepsBy (fun value hvalue => ?_) (pairwise_sorted values)
  exact hfinite value ((sorted_perm hfinite).mem_iff.mp hvalue)

section

variable {values : List LogProb} (hfinite : ∀ value ∈ values, value.isFinite = true) {bins : Nat}
  (hbins : values.length ≤ bins) {value : LogProb} (hvalue : value ∈ values)
include hfinite hbins hvalue

/-- Each of few finite values has a centre of its own number, which is the nearest. -/
theorem exists_center :
    ∃ j, ∃ hj : j < (train values bins).centers.size, j < values.length ∧
      (train values bins).nearest value = j ∧ (train values bins).centers[j].SameFinite value := by
  have hincreasing := increasing_train hfinite hbins
  have hperm := sorted_perm hfinite
  have hsorted : ∀ value ∈ sorted values, value.isFinite = true := fun value hvalue =>
    hfinite value (hperm.mem_iff.mp hvalue)
  obtain ⟨center, hcenter, hnumber⟩ := Trie.exists_mem_eraseRepsBy numEq number
    (fun x hx y hy => numEq_iff (hsorted x hx) (hsorted y hy)) (hperm.mem_iff.mpr hvalue)
  rw [← List.mem_toArray, ← centers_train hfinite hbins] at hcenter
  obtain ⟨j, hj, rfl⟩ := Array.getElem_of_mem hcenter
  have hfew : (train values bins).centers.size ≤ values.length := by
    rw [centers_train hfinite hbins, List.size_toArray, ← hperm.length_eq]
    exact (Trie.eraseRepsBy_sublist numEq (sorted values)).length_le
  exact ⟨j, hj, Nat.lt_of_lt_of_le hj hfew,
    hincreasing.nearest_eq (hfinite value hvalue) hj hnumber.symm,
    hincreasing.finite _ hcenter, hfinite value hvalue, hnumber⟩

/-- Codes of few values are less than there are values. -/
theorem toNat_encode_train_lt (hcodes : values.length ≤ 256) :
    ((train values bins).encode value).toNat < values.length := by
  obtain ⟨j, -, hlt, hnearest, -⟩ := exists_center hfinite hbins hvalue
  rw [encode, hnearest, UInt8.toNat_ofNat_of_lt' (Nat.lt_of_lt_of_le hlt hcodes)]
  exact hlt

/-- Few finite values come back from their codes as the same numbers. -/
theorem decode_encode_train (hcodes : values.length ≤ 256) :
    ((train values bins).decode ((train values bins).encode value)).SameFinite value := by
  obtain ⟨j, hj, hlt, hnearest, hcenter⟩ := exists_center hfinite hbins hvalue
  rw [decode, encode, hnearest, UInt8.toNat_ofNat_of_lt' (Nat.lt_of_lt_of_le hlt hcodes),
    Array.getD_eq_getD_getElem?, Array.getElem?_eq_getElem hj]
  exact hcenter

end

end BackoffLM.Bins

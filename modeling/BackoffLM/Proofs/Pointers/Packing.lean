import BackoffLM.Proofs.Pointers

/-!
# Packed pointers decode what they encode

Offsets that never decrease are given back by packed pointers, however many they are, however often
a high part is repeated, and however many high parts are skipped at once. Less is enough: the places
of high parts never decrease, whatever the offsets are (`Ordered`), so the high part that is counted
for a place never decreases either (`highAt_mono`), while the low part that is added to it stays
below one unit (`get_div_highUnit`). So a list is given back exactly when its high parts never
decrease (`get_ofOffsets_exact`), and low parts may stand in any order under one high part.
-/

namespace BackoffLM.PackedPointers

/-! ## The places of high parts -/

/-- The places of high parts never decrease, and none is after the last offset. -/
structure Ordered (p : PackedPointers) : Prop where
  sorted : p.highStarts.toList.Pairwise (· ≤ ·)
  le_size : ∀ start ∈ p.highStarts.toList, start ≤ p.low.size

/-- There are no places at first. -/
theorem ordered_empty : empty.Ordered := by
  refine ⟨List.Pairwise.nil, fun start h => ?_⟩
  simp [empty] at h

/-- Whatever offset is added, the places that it is the first to reach are after all others. -/
theorem Ordered.push {p : PackedPointers} (hp : p.Ordered) (offset : Nat) :
    (p.push offset).Ordered := by
  have hstarts : (p.push offset).highStarts.toList = p.highStarts.toList ++
      List.replicate (offset / highUnit + 1 - p.highStarts.size) p.low.size := by
    simp [PackedPointers.push]
  have hsize : (p.push offset).low.size = p.low.size + 1 := by
    simp [PackedPointers.push]
  refine ⟨?_, fun start h => ?_⟩
  · rw [hstarts, List.pairwise_append]
    refine ⟨hp.sorted, ?_, fun old hold new hnew => ?_⟩
    · exact List.pairwise_replicate.mpr (.inr (Nat.le_refl _))
    · rw [List.eq_of_mem_replicate hnew]
      exact hp.le_size old hold
  · rw [hstarts, List.mem_append] at h
    rw [hsize]
    rcases h with hold | hnew
    · exact Nat.le_succ_of_le (hp.le_size start hold)
    · rw [List.eq_of_mem_replicate hnew]
      exact Nat.le_succ _

/-- Offsets in any order leave the places in order. -/
theorem ordered_foldl_push {p : PackedPointers} (hp : p.Ordered) (offsets : List Nat) :
    (offsets.foldl PackedPointers.push p).Ordered := by
  induction offsets generalizing p with
  | nil => exact hp
  | cons offset offsets ih => exact ih (hp.push offset)

/-! ## The high part of a place -/

/-- The high part that is counted for a place: of the high parts that it reaches, the last. -/
def highAt (p : PackedPointers) (i : Nat) : Nat :=
  Bisect.boundary p.highStarts (fun start => start ≤ i) - 1

/-- A later place reaches no fewer high parts. -/
theorem Ordered.highAt_mono {p : PackedPointers} (hp : p.Ordered) {i j : Nat} (hij : i ≤ j) :
    p.highAt i ≤ p.highAt j := by
  -- The places up to any one come first, so the boundary tells them from the others.
  have hspec : ∀ k h (hh : h < p.highStarts.size), p.highStarts[h] ≤ k ↔
      h < Bisect.boundary p.highStarts (fun start => decide (start ≤ k)) := by
    intro k h hh
    rw [← Bisect.boundary_spec p.highStarts (fun start => decide (start ≤ k))
      (fun a b hb hab hle => ?_) h hh, decide_eq_true_eq]
    rw [decide_eq_true_eq] at hle ⊢
    rcases Nat.lt_or_eq_of_le hab with hlt | rfl
    · have hle' := List.pairwise_iff_getElem.mp hp.sorted a b
        (by rw [Array.length_toList]; omega) (by rwa [Array.length_toList]) hlt
      rw [Array.getElem_toList, Array.getElem_toList] at hle'
      omega
    · exact hle
  have hbound := Bisect.boundary_le p.highStarts fun start => decide (start ≤ i)
  refine Nat.sub_le_sub_right (Nat.le_of_not_lt fun hlt => ?_) 1
  have hreached := (hspec i _ (Nat.lt_of_lt_of_le hlt hbound)).mpr hlt
  exact Nat.lt_irrefl _ ((hspec j _ (Nat.lt_of_lt_of_le hlt hbound)).mp (Nat.le_trans hreached hij))

/-- What a place gives has the high part that is counted for it. -/
theorem get_div_highUnit (p : PackedPointers) (i : Nat) : p.get i / highUnit = p.highAt i := by
  have hlow : (p.low.getD i 0).toNat < highUnit := UInt16.toNat_lt _
  rw [get, ← highAt]
  rw [Nat.mul_comm, Nat.mul_add_div (by decide), Nat.div_eq_of_lt hlow, Nat.add_zero]

/-- Packed pointers give back every list of offsets that never decreases, and they give back a list
exactly when its high parts never decrease. -/
theorem get_ofOffsets_exact (offsets : List Nat) :
    let p : PackedPointers := PointerArray.ofOffsets offsets
    let GivenBack := ∀ i (h : i < offsets.length), PointerArray.get p i = offsets[i]
    PointerArray.size p = offsets.length ∧
      (offsets.Pairwise (· ≤ ·) → GivenBack) ∧ (GivenBack ↔ HighsSorted offsets) := by
  intro p GivenBack
  have hback : HighsSorted offsets → GivenBack := fun hs i h =>
    (packs_foldl_push packs_empty offsets hs).get_eq i h
  refine ⟨LawfulPointers.size_ofOffsets offsets, fun hs => hback (highsSorted_of_pairwise hs),
    fun hgiven => ?_, hback⟩
  -- The high parts of what is given back are those that are counted, which never decrease.
  have hordered : p.Ordered := ordered_foldl_push ordered_empty offsets
  refine List.pairwise_iff_getElem.mpr fun i j hi hj hij => ?_
  rw [← hgiven i hi, ← hgiven j hj]
  show p.get i / highUnit ≤ p.get j / highUnit
  rw [get_div_highUnit, get_div_highUnit]
  exact hordered.highAt_mono (Nat.le_of_lt hij)

/-- Offsets that repeat a high part, skip several, and end with one above 32 bits. -/
theorem get_ofOffsets_exact_jumps :
    let offsets := [0, 5, 65535, 65536, 65540, 200000, 200000, 1048576, 8589934592]
    offsets.Pairwise (· ≤ ·) ∧ ∀ i (h : i < offsets.length),
      PointerArray.get (PointerArray.ofOffsets offsets : PackedPointers) i = offsets[i] := by
  intro offsets
  have hs : offsets.Pairwise (· ≤ ·) := by decide
  exact ⟨hs, (get_ofOffsets_exact offsets).2.1 hs⟩

end BackoffLM.PackedPointers

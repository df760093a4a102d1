import BackoffLM.Proofs.Floats.Order

/-!
# The order with the infinities

An infinity is unpacked as one (`unpacked_of_infinite`) and a NaN as a NaN (`unpacked_of_isNaN`). So
whatever is no NaN compares as the whole numbers that the bits stand for, with the infinities beyond
all finite numbers (`numLe_iff`), and is ordered totally.
-/

namespace BackoffLM.LogProb

open Float.Model (Format UnpackedFloat)
open Float.Model.UnpackedFloat
open Floats

variable {x : LogProb}

/-! ## What is not finite -/

/-- The exponent field of what is not finite has all bits set. -/
theorem unpackExponent_eq (h : 0x7F800000 ≤ x.magnitude) : unpackExponent x.word = -1#_ := by
  have hlt : x.magnitude < 0x80000000 := Nat.mod_lt _ (by decide)
  apply BitVec.eq_of_toNat_eq
  rw [toNat_unpackExponent, BitVec.neg_one_eq_allOnes, BitVec.toNat_allOnes]
  norm_num
  omega

/-- An infinity is unpacked as one of its sign. -/
theorem unpacked_of_infinite (h : x.magnitude = 0x7F800000) : x.unpacked = .infinity x.sign := by
  have hmantissa : unpackMantissa x.word = 0#_ :=
    BitVec.eq_of_toNat_eq (by rw [toNat_unpackMantissa, h]; rfl)
  have hword : unpack _ x.word = .infinity x.sign := by
    rw [unpack, if_pos (unpackExponent_eq h.ge), if_pos hmantissa, ofBitVec_unpackSign]
  show unpack _ (pack _ (unpack _ x.word)) = _
  rw [hword, pack, unpack_packedInfinity]

/-- A NaN is unpacked as a NaN. -/
theorem unpacked_of_isNaN (h : x.isNaN = true) : x.unpacked = .notANumber := by
  have hmagnitude : 0x7F800000 < x.magnitude := of_decide_eq_true h
  have hmantissa : unpackMantissa x.word ≠ 0#_ := by
    intro hzero
    have hnat := congrArg BitVec.toNat hzero
    have hlt : x.magnitude < 0x80000000 := Nat.mod_lt _ (by decide)
    rw [toNat_unpackMantissa, BitVec.toNat_zero] at hnat
    omega
  have hword : unpack _ x.word = .notANumber := by
    rw [unpack, if_pos (unpackExponent_eq hmagnitude.le), if_neg hmantissa]
  show unpack _ (pack _ (unpack _ x.word)) = _
  rw [hword]
  rfl

/-- What is no NaN is finite or an infinity. -/
theorem isFinite_or (h : x.isNaN = false) : x.isFinite = true ∨ x.magnitude = 0x7F800000 := by
  have hle := of_decide_eq_false h
  rw [isFinite, decide_eq_true_iff]
  omega

/-- A finite number is no NaN. -/
theorem isNaN_of_isFinite (h : x.isFinite = true) : x.isNaN = false := by
  have hlt : x.magnitude < 0x7F800000 := of_decide_eq_true h
  rw [isNaN, decide_eq_false_iff_not]
  omega

/-- A finite number is unpacked as neither an infinity nor a NaN. -/
theorem unpacked_of_isFinite (h : x.isFinite = true) :
    (∃ s, x.unpacked = .zero s) ∨ ∃ s m e hpos, x.unpacked = .finite s m e hpos := by
  by_cases hzero : x.magnitude = 0
  · exact .inl ⟨_, unpacked_of_magnitude_eq_zero hzero⟩
  · obtain ⟨m, e, hparts⟩ := exists_parts h hzero
    exact .inr ⟨_, _, _, _, hparts.unpacked_eq⟩

/-! ## Comparisons -/

variable {a b : LogProb}

/-- The whole number of a finite number is between those of the infinities. -/
theorem abs_number_lt (h : x.isFinite = true) : -0x7F800000 < x.number ∧ x.number < 0x7F800000 := by
  have hlt : x.magnitude < 0x7F800000 := of_decide_eq_true h
  rw [number]
  cases x.sign <;> simp only [Sign.apply] <;> omega

/-- The whole number of an infinity is that of its sign. -/
theorem number_of_infinite (h : x.magnitude = 0x7F800000) :
    x.number = x.sign.apply 0x7F800000 := by
  rw [number, h]
  rfl

/-- An infinity is on one side of all finite numbers. -/
theorem infinity_compare (s : Sign) (h : x.isFinite = true) :
    UnpackedFloat.compare (.infinity s) x.unpacked =
      some (compare (s.apply 0x7F800000) x.number) := by
  obtain ⟨hlow, hhigh⟩ := abs_number_lt h
  cases s with
  | negative =>
    rw [show compare (Sign.negative.apply 0x7F800000) x.number = .lt from
      Int.compare_eq_lt.mpr hlow]
    rcases unpacked_of_isFinite h with ⟨s, hs⟩ | ⟨s, m, e, hpos, hs⟩ <;> rw [hs] <;> rfl
  | positive =>
    rw [show compare (Sign.positive.apply 0x7F800000) x.number = .gt from
      Int.compare_eq_gt.mpr hhigh]
    rcases unpacked_of_isFinite h with ⟨s, hs⟩ | ⟨s, m, e, hpos, hs⟩ <;> rw [hs] <;> rfl

/-- All finite numbers are on one side of an infinity. -/
theorem compare_infinity (s : Sign) (h : x.isFinite = true) :
    x.unpacked.compare (.infinity s) = some (compare x.number (s.apply 0x7F800000)) := by
  obtain ⟨hlow, hhigh⟩ := abs_number_lt h
  cases s with
  | negative =>
    rw [show compare x.number (Sign.negative.apply 0x7F800000) = .gt from
      Int.compare_eq_gt.mpr hlow]
    rcases unpacked_of_isFinite h with ⟨s, hs⟩ | ⟨s, m, e, hpos, hs⟩ <;> rw [hs] <;> rfl
  | positive =>
    rw [show compare x.number (Sign.positive.apply 0x7F800000) = .lt from
      Int.compare_eq_lt.mpr hhigh]
    rcases unpacked_of_isFinite h with ⟨s, hs⟩ | ⟨s, m, e, hpos, hs⟩ <;> rw [hs] <;> rfl

/-- What is no NaN compares as the whole numbers of the bits. -/
theorem compare_eq_of_not_isNaN (ha : a.isNaN = false) (hb : b.isNaN = false) :
    a.unpacked.compare b.unpacked = some (compare a.number b.number) := by
  rcases isFinite_or ha with hfinite | hinfinite
  · rcases isFinite_or hb with hfinite' | hinfinite'
    · exact compare_eq hfinite hfinite'
    · rw [unpacked_of_infinite hinfinite', number_of_infinite hinfinite']
      exact compare_infinity b.sign hfinite
  · rw [unpacked_of_infinite hinfinite, number_of_infinite hinfinite]
    rcases isFinite_or hb with hfinite' | hinfinite'
    · exact infinity_compare a.sign hfinite'
    · rw [unpacked_of_infinite hinfinite', number_of_infinite hinfinite']
      cases a.sign <;> cases b.sign <;> rfl

/-- What is no NaN is less than another exactly if its whole number is. -/
theorem numLt_iff_of_not_isNaN (ha : a.isNaN = false) (hb : b.isNaN = false) :
    a.numLt b = true ↔ a.number < b.number := by
  rw [numLt_eq, compare_eq_of_not_isNaN ha hb, beq_iff_eq, Option.some.injEq, Int.compare_eq_lt]

/-- What is no NaN is at most another exactly if its whole number is. -/
theorem numLe_iff :
    a.numLe b = true ↔ a.isNaN = false ∧ b.isNaN = false ∧ a.number ≤ b.number := by
  have hle : a.numLe b = Option.any (fun x => x.isLE) (a.unpacked.compare b.unpacked) := by
    rw [Bool.eq_iff_iff, numLe, decide_eq_true_iff]
    exact decide_eq_true_iff
  rw [hle]
  cases ha : a.isNaN with
  | true => simp [unpacked_of_isNaN ha, UnpackedFloat.compare]
  | false =>
    cases hb : b.isNaN with
    | true =>
      have hnone : a.unpacked.compare b.unpacked = none := by
        rw [unpacked_of_isNaN hb]
        cases a.unpacked <;> rfl
      simp [hnone]
    | false =>
      rw [compare_eq_of_not_isNaN ha hb, Option.any_some, Int.isLE_compare]
      simp

/-- What lies between finite numbers is finite. -/
theorem isFinite_of_between {low high : LogProb} (hlow : low.isFinite = true)
    (hhigh : high.isFinite = true) (hx : x.isNaN = false) (h : low.number ≤ x.number)
    (h' : x.number ≤ high.number) : x.isFinite = true := by
  rcases isFinite_or hx with hfinite | hinfinite
  · exact hfinite
  · have hleast := (abs_number_lt hlow).1
    have hgreatest := (abs_number_lt hhigh).2
    rw [number_of_infinite hinfinite] at h h'
    cases hs : x.sign <;> rw [hs] at h h' <;> simp only [Sign.apply] at h h' <;> omega

end BackoffLM.LogProb

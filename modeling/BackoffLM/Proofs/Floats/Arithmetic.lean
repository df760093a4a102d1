import BackoffLM.Proofs.Floats.Order
import BackoffLM.Proofs.Sums

/-!
# Differences and sums of finite log probabilities

However a difference is rounded, it is above zero when a finite log probability is subtracted from a
greater one, and a zero when it is subtracted from an equal one; so the first is never taken for no
greater than the second (`not_numLe_sub`). A sum of finite log probabilities may pass to an infinity
but is no NaN, and equal log probabilities have equal sums (`numEq_add_sum`).
-/

namespace BackoffLM.LogProb

open Float.Model (Format UnpackedFloat)
open Float.Model.UnpackedFloat
open Floats

/-- A difference is what the difference of the parts is packed into. -/
theorem unpacked_sub (a b : LogProb) :
    (a - b).unpacked = unpack _ (pack .binary32 (sub .binary32 a.unpacked b.unpacked)) := by
  show (ofFloat32 (a.toFloat32 - b.toFloat32)).toFloat32.toModel.unpack = _
  rw [show (ofFloat32 (a.toFloat32 - b.toFloat32)).toFloat32 = _ from Float32.ofBits_toBits _]
  rfl

/-- A sum is what the sum of the parts is packed into. -/
theorem unpacked_add (a b : LogProb) :
    (a + b).unpacked = unpack _ (pack .binary32 (add .binary32 a.unpacked b.unpacked)) := by
  rw [unpacked, toFloat32_add]
  rfl

/-! ## Differences -/

variable {a b : LogProb}

/-- Of two magnitudes the greater one stays greater when both mantissas are written with the lesser
exponent. -/
theorem Parts.scaled_lt {ma mb : Nat} {ea eb : Int} (ha : Parts a ma ea) (hb : Parts b mb eb)
    (h : a.magnitude < b.magnitude) :
    ma <<< (ea - min eb ea).toNat < mb <<< (eb - min eb ea).toNat := by
  obtain ⟨hpos, hlt, hmin, hnormal, -, -⟩ := ha.bounds
  obtain ⟨hpos', hlt', hmin', hnormal', -, -⟩ := hb.bounds
  rw [Nat.shiftLeft_eq, Nat.shiftLeft_eq]
  rcases (ha.magnitude_lt_iff hb).mp h with he | ⟨rfl, hm⟩
  · rw [min_eq_right he.le, Int.sub_self, Int.toNat_zero, Nat.pow_zero, Nat.mul_one]
    have htwo : 2 ^ 1 ≤ 2 ^ (eb - ea).toNat := Nat.pow_le_pow_right Nat.two_pos (by omega)
    calc ma < 2 ^ 23 * 2 ^ 1 := hlt
      _ ≤ mb * 2 ^ (eb - ea).toNat := Nat.mul_le_mul (by omega) htwo
  · rw [min_self, Int.sub_self, Int.toNat_zero, Nat.pow_zero, Nat.mul_one, Nat.mul_one]
    exact hm

/-- The greater number minus the lesser is positive when both mantissas are written with the lesser
exponent. -/
theorem Parts.difference_pos {ma mb : Nat} {ea eb : Int} (ha : Parts a ma ea) (hb : Parts b mb eb)
    (h : a.number < b.number) :
    0 < b.sign.apply (mb <<< (eb - min eb ea).toNat : Nat) -
      a.sign.apply (ma <<< (ea - min eb ea).toNat : Nat) := by
  have hpos : 0 < ma <<< (ea - min eb ea).toNat := by
    rw [Nat.shiftLeft_eq]
    exact Nat.mul_pos ha.pos (Nat.two_pow_pos _)
  have hab := ha.scaled_lt hb
  have hba := hb.scaled_lt ha
  rw [min_comm ea eb] at hba
  generalize ma <<< (ea - min eb ea).toNat = ma' at *
  generalize mb <<< (eb - min eb ea).toNat = mb' at *
  unfold number at h
  revert h
  cases a.sign <;> cases b.sign <;> dsimp only [Sign.apply] <;> omega

/-- The greater of two finite numbers minus the lesser is above zero. -/
theorem unpacked_sub_of_lt (ha : a.isFinite = true) (hb : b.isFinite = true)
    (h : a.number < b.number) :
    (b - a).unpacked = .infinity .positive ∨
      ∃ m e hpos, (b - a).unpacked = .finite .positive m e hpos := by
  rw [unpacked_sub]
  by_cases ha0 : a.magnitude = 0
  · -- The greater number is above zero, and is the difference.
    rw [number_of_magnitude_eq_zero ha0] at h
    have hb0 : b.magnitude ≠ 0 := fun hb0 => by
      rw [number_of_magnitude_eq_zero hb0] at h
      exact lt_irrefl _ h
    obtain ⟨mb, eb, hparts⟩ := exists_parts hb hb0
    rw [unpacked_of_magnitude_eq_zero ha0, hparts.unpacked_eq]
    rw [number] at h
    cases hsign : b.sign with
    | negative =>
      rw [hsign] at h
      exact absurd h (show ¬ 0 < -(b.magnitude : Int) by omega)
    | positive => exact unpack_pack_fits .positive hparts.toFits
  · obtain ⟨ma, ea, hparts⟩ := exists_parts ha ha0
    by_cases hb0 : b.magnitude = 0
    · -- The lesser number is below zero, and its opposite is the difference.
      rw [number_of_magnitude_eq_zero hb0, number] at h
      rw [unpacked_of_magnitude_eq_zero hb0, hparts.unpacked_eq]
      cases hsign : a.sign with
      | positive =>
        rw [hsign] at h
        exact absurd h (show ¬ (a.magnitude : Int) < 0 by omega)
      | negative => exact unpack_pack_fits .positive hparts.toFits
    · obtain ⟨mb, eb, hparts'⟩ := exists_parts hb hb0
      have hdifference := hparts.difference_pos hparts' h
      rw [hparts.unpacked_eq, hparts'.unpacked_eq]
      exact unpack_pack_normalize hdifference.ne' (le_min hparts'.min_le hparts.min_le) .positive
        (if_pos hdifference).symm

/-- A finite number minus an equal one is a zero. -/
theorem unpacked_sub_of_eq (ha : a.isFinite = true) (h : a.number = b.number) :
    ∃ s, (b - a).unpacked = .zero s := by
  have hzeros : ∀ s t, ∃ s', unpack _ (pack .binary32 (sub .binary32 (.zero s) (.zero t))) =
      .zero s' := by
    intro s t
    rw [sub]
    split <;> exact ⟨_, unpack_packedZero⟩
  rw [unpacked_sub]
  by_cases h0 : a.magnitude = 0
  · have hb0 : b.magnitude = 0 := by
      rcases number_eq_iff.mp h with rfl | ⟨-, hb0⟩
      · exact h0
      · exact hb0
    rw [unpacked_of_magnitude_eq_zero h0, unpacked_of_magnitude_eq_zero hb0]
    exact hzeros _ _
  · obtain rfl := (number_eq_iff.mp h).resolve_right fun hboth => h0 hboth.1
    obtain ⟨m, e, hparts⟩ := exists_parts ha h0
    rw [hparts.unpacked_eq, sub]
    dsimp only
    rw [Int.sub_self]
    exact ⟨.positive, unpack_packedZero⟩

/-- The distance to a number below is never taken for no greater than that to an equal one. -/
theorem not_numLe_sub {low value high : LogProb} (hlow : low.isFinite = true)
    (hvalue : value.isFinite = true) (hlt : low.number < value.number)
    (heq : value.number = high.number) :
    (value - low).numLe (high - value) = false := by
  have hle : (value - low).numLe (high - value) =
      ((value - low).unpacked.compare (high - value).unpacked).any (·.isLE) := by
    rw [Bool.eq_iff_iff, numLe, decide_eq_true_iff]
    exact decide_eq_true_iff
  obtain ⟨s, hzero⟩ := unpacked_sub_of_eq hvalue heq
  rw [hle, hzero]
  rcases unpacked_sub_of_lt hlow hvalue hlt with hinfinite | ⟨m, e, hpos, hfinite⟩
  · rw [hinfinite]
    rfl
  · rw [hfinite]
    rfl

/-! ## Sums -/

/-- Sums do not depend on the order of two terms. -/
protected theorem add_comm (a b : LogProb) : a + b = b + a := by
  have hparts : ∀ u v : UnpackedFloat, add .binary32 u v = add .binary32 v u := by
    intro u v
    cases u <;> cases v <;> try rfl
    · rename_i s t
      cases s <;> cases t <;> rfl
    · rename_i s t
      cases s <;> cases t <;> rfl
    · unfold add
      dsimp only
      rw [min_comm, Int.add_comm]
  show ofFloat32 ⟨Float32.Model.pack (add .binary32 a.unpacked b.unpacked)⟩ = _
  rw [hparts]
  rfl

/-- The same numbers have the same sums. -/
theorem SameNumber.add {c d : LogProb} (hab : a.SameNumber b) (hcd : c.SameNumber d) :
    (a + c).SameNumber (b + d) := by
  refine (hab.add_right c).trans ?_
  rw [b.add_comm c, b.add_comm d]
  exact hcd.add_right b

/-- No NaN, and within the bounds of single precision where it is finite. -/
def Proper : UnpackedFloat → Prop
  | .notANumber => False
  | .infinity _ => True
  | .zero _ => True
  | .finite _ m e _ => Fits .binary32 m e

/-- What a log probability stands for is proper unless it is a NaN. -/
theorem proper_unpacked {x : LogProb} (h : x.unpacked ≠ .notANumber) : Proper x.unpacked := by
  cases hx : x.unpacked with
  | notANumber => exact absurd hx h
  | infinity s => trivial
  | zero s => trivial
  | finite s m e hpos => exact (canonical_of_unpack hx).1.toFits

/-- What is packed from something proper is no NaN. -/
theorem Proper.unpack_pack_ne {u : UnpackedFloat} (h : Proper u) :
    unpack _ (pack .binary32 u) ≠ .notANumber := by
  cases u with
  | notANumber => exact h.elim
  | infinity s =>
    rw [pack, unpack_packedInfinity]
    nofun
  | zero s =>
    rw [pack, unpack_packedZero]
    nofun
  | finite s m e hpos =>
    rcases unpack_pack_fits s h with hpack | ⟨m', e', hpos', hpack⟩ <;>
      rw [hpack] <;> nofun

/-- A finite term makes no sum improper. -/
theorem Proper.add {u v : UnpackedFloat} (hu : Proper u) (hv : Proper v)
    (hfinite : ∀ s, v ≠ .infinity s) : Proper (add .binary32 u v) := by
  cases v with
  | notANumber => exact hv.elim
  | infinity s => exact absurd rfl (hfinite s)
  | zero t =>
    cases u with
    | zero s => cases s <;> cases t <;> trivial
    | _ => exact hu
  | finite t m' e' hpos' =>
    cases u with
    | notANumber => exact hu
    | infinity s => trivial
    | zero s => exact hv
    | finite s m e hpos =>
      have hfits : Fits .binary32 m e := hu
      have hfits' : Fits .binary32 m' e' := hv
      have hmin : Format.binary32.minExponent ≤ min e e' := le_min hfits.min_le hfits'.min_le
      unfold UnpackedFloat.add
      dsimp only
      generalize s.apply _ + t.apply _ = sum
      by_cases hzero : sum = 0
      · rw [hzero]
        trivial
      · obtain ⟨m₁, e₁, hfits₁, hround⟩ :=
          exists_round (if 0 < sum then .positive else .negative) (Int.natAbs_pos.mpr hzero) hmin
        rw [normalize_of_ne_zero hzero, hround]
        exact hfits₁

/-- What is no NaN is none after a finite number is added. -/
theorem unpacked_add_ne (ha : a.unpacked ≠ .notANumber) (hb : b.isFinite = true) :
    (a + b).unpacked ≠ .notANumber := by
  have hfinite : (∀ s, b.unpacked ≠ .infinity s) ∧ b.unpacked ≠ .notANumber := by
    by_cases h0 : b.magnitude = 0
    · rw [unpacked_of_magnitude_eq_zero h0]
      exact ⟨nofun, nofun⟩
    · obtain ⟨m, e, hparts⟩ := exists_parts hb h0
      rw [hparts.unpacked_eq]
      exact ⟨nofun, nofun⟩
  rw [unpacked_add]
  exact ((proper_unpacked ha).add (proper_unpacked hfinite.2) hfinite.1).unpack_pack_ne

theorem SameFinite.sameNumber (h : a.SameFinite b) : a.SameNumber b := .inl h.numEq_eq

/-- The same numbers are equal unless they are NaN. -/
theorem SameNumber.numEq_eq (h : a.SameNumber b) (ha : a.unpacked ≠ .notANumber) :
    a.numEq b = true :=
  h.resolve_right fun hnan => ha (isNaN_iff.mp hnan.1)

variable {xs ys : List LogProb}

/-- Sums of the same numbers, from the same number on, are the same numbers. -/
theorem SameNumber.foldl_forall₂ (h : a.SameNumber b) (hxs : List.Forall₂ SameFinite xs ys) :
    (xs.foldl (· + ·) a).SameNumber (ys.foldl (· + ·) b) := by
  induction hxs generalizing a b with
  | nil => exact h
  | cons hxy _ ih => exact ih (h.add hxy.sameNumber)

/-- A sum of finite numbers is no NaN, as it stays with the first infinity. -/
theorem unpacked_foldl_ne (ha : a.unpacked ≠ .notANumber) (hxs : ∀ x ∈ xs, x.isFinite = true) :
    (xs.foldl (· + ·) a).unpacked ≠ .notANumber := by
  induction xs generalizing a with
  | nil => exact ha
  | cons x xs ih =>
    exact ih (unpacked_add_ne ha (hxs x List.mem_cons_self))
      fun y hy => hxs y (List.mem_cons_of_mem x hy)

/-- The same numbers, each added to the sum of the same numbers, are equal. -/
theorem numEq_add_sum (h : a.SameFinite b) (hxs : List.Forall₂ SameFinite xs ys) :
    (a + sum xs).numEq (b + sum ys) = true := by
  have hfinite : ∀ x ∈ xs, x.isFinite = true := by
    clear h
    induction hxs with
    | nil => nofun
    | cons hxy _ ih => exact List.forall_mem_cons.mpr ⟨hxy.left, ih⟩
  have hsum : (sum xs).unpacked ≠ .notANumber := by
    refine unpacked_foldl_ne ?_ hfinite
    rw [unpacked_of_magnitude_eq_zero (show negZero.magnitude = 0 from rfl)]
    nofun
  have hsame : (sum xs).SameNumber (sum ys) :=
    (SameNumber.refl negZero).foldl_forall₂ hxs
  refine (h.sameNumber.add hsame).numEq_eq ?_
  rw [LogProb.add_comm]
  exact unpacked_add_ne hsum h.left

end BackoffLM.LogProb

import BackoffLM.Bisect
import Mathlib.Tactic.Common

/-!
# Bisection finds what it looks for

`last_spec` is the loop of both searches: on a property that holds up to some point of a stretch,
halving ends at the last position that has it. `find?_eq_some_iff` says that `find?` finds exactly
the elements of an increasing stretch, and `boundary_spec` that `boundary` counts the elements of
the first part. `last_mem` and `boundary_le` hold of any property: whatever the data, the positions
that halving visits stay inside the stretch. The same boundary in a list is the number of elements
that have the property (`lt_countP_iff`).
-/

namespace BackoffLM.Bisect

/-- Halving stays between the first position and the end of the stretch. -/
theorem last_mem (holds : Nat → Bool) (size base : Nat) :
    base ≤ last holds size base ∧ last holds size base < base + max size 1 := by
  fun_induction last holds size base with
  | case1 size base h => omega
  | case2 size base h half ih =>
    split at ih
    · rename_i hmid
      simp only [hmid, if_true]
      omega
    · rename_i hmid
      simp only [hmid, Bool.false_eq_true, if_false]
      omega

/-- On a property that holds up to some point of `base .. base + size - 1`, halving ends at the last
position that has it, or at `base`; no position after that one has it. -/
theorem last_spec (holds : Nat → Bool) (size base : Nat)
    (mono : ∀ i j, base ≤ i → i ≤ j → j < base + size → holds j = true → holds i = true) :
    (last holds size base = base ∨ holds (last holds size base) = true) ∧
      ∀ j, last holds size base < j → j < base + size → holds j = false := by
  fun_induction last holds size base with
  | case1 size base h => exact ⟨.inl rfl, fun j h1 h2 => by omega⟩
  | case2 size base h half ih =>
    by_cases hmid : holds (base + half) = true
    · -- The middle has the property, so the search goes on from it to the same end.
      simp only [hmid, if_true, dite_true] at ih ⊢
      obtain ⟨hlast, hafter⟩ := ih fun i j h1 h2 h3 => mono i j (by omega) h2 (by omega)
      refine ⟨.inr ?_, fun j h1 h2 => hafter j h1 (by omega)⟩
      rcases hlast with heq | hholds
      · rw [heq]
        exact hmid
      · exact hholds
    · -- Nothing from the middle on has it, and the new stretch reaches at least to the middle.
      simp only [hmid, Bool.false_eq_true, if_false, dite_false] at ih ⊢
      obtain ⟨hlast, hafter⟩ := ih fun i j h1 h2 h3 => mono i j h1 h2 (by omega)
      refine ⟨hlast, fun j h1 h2 => ?_⟩
      rcases Nat.lt_or_ge j (base + (size - half)) with hj | hj
      · exact hafter j h1 hj
      · have hne : holds j ≠ true := fun hjt => hmid (mono _ j (by omega) (by omega) h2 hjt)
        exact Bool.eq_false_iff.mpr hne

/-- The elements of a stretch increase. -/
def Increasing (xs : Array Nat) (start stop : Nat) : Prop :=
  ∀ i j, start ≤ i → i < j → j < stop → xs.getD i 0 < xs.getD j 0

/-- Whatever is found is at its place inside the stretch. -/
theorem find?_sound {xs : Array Nat} {x start stop i : Nat} (h : find? xs x start stop = some i) :
    start ≤ i ∧ i < stop ∧ xs[i]? = some x := by
  unfold find? at h
  split at h
  · simp at h
  · rename_i hlt
    have hmem := last_mem (fun i => decide (xs.getD i 0 ≤ x)) (stop - start) start
    dsimp only at h
    split at h
    · rename_i hx
      obtain rfl := Option.some.inj h
      exact ⟨hmem.1, by omega, hx⟩
    · simp at h

/-- In an increasing stretch an element is found exactly at its place. -/
theorem find?_eq_some_iff {xs : Array Nat} {x start stop i : Nat}
    (hinc : Increasing xs start stop) :
    find? xs x start stop = some i ↔ start ≤ i ∧ i < stop ∧ xs[i]? = some x := by
  refine ⟨find?_sound, ?_⟩
  rintro ⟨h1, h2, hx⟩
  unfold find?
  rw [if_neg (by omega)]
  -- The positions up to that of the element are those of elements no greater.
  have hxi : xs.getD i 0 = x := by simp [Array.getD_eq_getD_getElem?, hx]
  have hmono : ∀ i j, start ≤ i → i ≤ j → j < start + (stop - start) →
      decide (xs.getD j 0 ≤ x) = true → decide (xs.getD i 0 ≤ x) = true := by
    intro i j hi hij hj hle
    rcases Nat.lt_or_eq_of_le hij with hlt | rfl
    · have := hinc i j hi hlt (by omega)
      simp only [decide_eq_true_eq] at hle ⊢
      omega
    · exact hle
  obtain ⟨hlast, hafter⟩ := last_spec _ _ _ hmono
  have hmem := last_mem (fun i => decide (xs.getD i 0 ≤ x)) (stop - start) start
  generalize last (fun i => decide (xs.getD i 0 ≤ x)) (stop - start) start = l at *
  -- The search ends neither before the element nor after it.
  have hl : l = i := by
    rcases Nat.lt_trichotomy l i with hlt | heq | hgt
    · have := hafter i hlt (by omega)
      simp [hxi] at this
    · exact heq
    · rcases hlast with hbase | hholds
      · omega
      · have := hinc i l h1 hgt (by omega)
        simp only [decide_eq_true_eq] at hholds
        omega
  simp [hl, hx]

section Boundary

variable {α : Type}

/-- The count never passes the number of elements. -/
theorem boundary_le (xs : Array α) (holds : α → Bool) : boundary xs holds ≤ xs.size := by
  unfold boundary
  split
  · omega
  · rename_i hne
    have hpos : 0 < xs.size := by
      rw [Array.isEmpty_iff_size_eq_zero] at hne
      omega
    have hmem := last_mem (fun i => (xs[i]?).any holds) xs.size 0
    dsimp only
    split <;> omega

/-- When a property holds of a first part only, that part has `boundary` elements: the property
holds of those before the boundary and of none from it on. -/
theorem boundary_spec (xs : Array α) (holds : α → Bool)
    (mono : ∀ i j (hj : j < xs.size) (hij : i ≤ j), holds xs[j] = true → holds xs[i] = true) :
    ∀ i (h : i < xs.size), holds xs[i] = true ↔ i < boundary xs holds := by
  intro i hi
  -- Halving looks at positions, where the property is that of the element there.
  have hmono : ∀ i j, 0 ≤ i → i ≤ j → j < 0 + xs.size →
      (xs[j]?).any holds = true → (xs[i]?).any holds = true := by
    intro i j _ hij hj h
    rw [Array.getElem?_eq_getElem (by omega)] at h ⊢
    exact mono i j (by omega) hij h
  have hat : ∀ j (hj : j < xs.size), (xs[j]?).any holds = holds xs[j] := by
    intro j hj
    rw [Array.getElem?_eq_getElem hj]
    rfl
  obtain ⟨hlast, hafter⟩ := last_spec _ _ _ hmono
  have hmem := last_mem (fun i => (xs[i]?).any holds) xs.size 0
  unfold boundary
  rw [if_neg (by rw [Array.isEmpty_iff_size_eq_zero]; omega)]
  dsimp only
  generalize last (fun i => (xs[i]?).any holds) xs.size 0 = l at *
  rw [← hat i hi]
  constructor
  · -- What has the property stands no later than the position where halving ends.
    intro h
    have hle : i ≤ l := by
      by_contra hgt
      rw [hafter i (by omega) (by omega)] at h
      simp at h
    have hl : (xs[l]?).any holds = true := by
      rcases hlast with h0 | hl
      · have hi0 : i = l := by omega
        rw [← hi0]
        exact h
      · exact hl
    rw [if_pos hl]
    omega
  · -- What stands before that position has the property as well.
    intro h
    split at h
    · rename_i hl
      exact hmono i l (by omega) (by omega) (by omega) hl
    · rename_i hl
      rcases hlast with h0 | hl'
      · omega
      · exact absurd hl' hl

end Boundary

section Counting

variable {α : Type} {xs : List α} {holds : α → Bool}

/-- When a property holds of a first part only, an element has it exactly when its position is below
the number of elements that have it. -/
theorem lt_countP_iff (h : xs.Pairwise fun a b => holds b = true → holds a = true) :
    ∀ i (hi : i < xs.length), i < xs.countP holds ↔ holds xs[i] = true := by
  induction xs with
  | nil => intro i hi; simp at hi
  | cons x xs ih =>
    obtain ⟨hfirst, hrest⟩ := List.pairwise_cons.mp h
    intro i hi
    by_cases hx : holds x = true
    · rw [List.countP_cons_of_pos hx]
      cases i with
      | zero => simp [hx]
      | succ i =>
        rw [List.getElem_cons_succ, ← ih hrest i (by simpa using hi)]
        omega
    · -- The first element has not the property, so none has.
      have hnone : ∀ y ∈ x :: xs, ¬ holds y = true := by
        intro y hy
        rcases List.mem_cons.mp hy with rfl | hy
        · exact hx
        · exact fun hyt => hx (hfirst y hy hyt)
      have hzero : (x :: xs).countP holds = 0 := List.countP_eq_zero.mpr hnone
      have := hnone _ (List.getElem_mem hi)
      rw [hzero]
      exact ⟨fun hlt => absurd hlt (Nat.not_lt_zero i), fun hyt => absurd hyt this⟩

/-- Then the first part is what `takeWhile` takes. -/
theorem length_takeWhile (h : xs.Pairwise fun a b => holds b = true → holds a = true) :
    (xs.takeWhile holds).length = xs.countP holds := by
  induction xs with
  | nil => rfl
  | cons x xs ih =>
    obtain ⟨hfirst, hrest⟩ := List.pairwise_cons.mp h
    by_cases hx : holds x = true
    · rw [List.takeWhile_cons_of_pos hx, List.countP_cons_of_pos hx, List.length_cons, ih hrest]
    · have hzero : xs.countP holds = 0 :=
        List.countP_eq_zero.mpr fun y hy hyt => hx (hfirst y hy hyt)
      rw [List.takeWhile_cons_of_neg hx, List.countP_cons_of_neg hx, hzero]
      rfl

end Counting

end BackoffLM.Bisect

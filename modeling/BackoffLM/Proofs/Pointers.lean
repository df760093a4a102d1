import BackoffLM.Index.Pointers
import BackoffLM.Proofs.Bisect
import BackoffLM.Proofs.Outcome
import Mathlib.Data.List.Basic

/-!
# Child pointers give back their offsets

`LawfulPointers` says what a list of child offsets owes its trie: built from offsets that never
decrease, it has one pointer for each and gives each of them back. `PlainPointers` keep the offsets
as they are. For `PackedPointers` the invariant of `push` is `Packs`: the first place that reaches
the high part `h` is the number of offsets with a lower high part. As high parts never decrease, the
places at or before `i` are then those of the high parts up to that of offset `i`, which is what
`get` counts (`Packs.boundary_eq`). `validate_spec` is what a list that was read from a file is
known to satisfy once it was checked.
-/

namespace BackoffLM

/-- Pointers that give back the offsets that they were built from. -/
class LawfulPointers (P : Type) [PointerArray P] : Prop where
  /-- There is one pointer for each offset. -/
  size_ofOffsets : ∀ offsets : List Nat,
    PointerArray.size (PointerArray.ofOffsets offsets : P) = offsets.length
  /-- Offsets that never decrease are given back. -/
  get_ofOffsets : ∀ offsets : List Nat, offsets.Pairwise (· ≤ ·) →
    ∀ i (h : i < offsets.length),
      PointerArray.get (PointerArray.ofOffsets offsets : P) i = offsets[i]

instance : LawfulPointers PlainPointers where
  size_ofOffsets offsets := by
    show offsets.toArray.size = offsets.length
    exact List.size_toArray
  get_ofOffsets offsets _ i h := by
    show (offsets.toArray).getD i 0 = offsets[i]
    simp [Array.getD_eq_getD_getElem?, h]

namespace PackedPointers

/-- The low parts are those of the offsets, in order. -/
theorem low_foldl_push (offsets : List Nat) (p : PackedPointers) :
    (offsets.foldl push p).low.toList = p.low.toList ++ offsets.map UInt16.ofNat := by
  induction offsets generalizing p with
  | nil => simp
  | cons offset offsets ih =>
    rw [List.foldl_cons, ih]
    simp [push]

/-- The high parts of offsets never decrease. -/
def HighsSorted (offsets : List Nat) : Prop :=
  offsets.Pairwise fun a b => a / highUnit ≤ b / highUnit

/-- Where offsets never decrease, neither do their high parts. -/
theorem highsSorted_of_pairwise {offsets : List Nat} (h : offsets.Pairwise (· ≤ ·)) :
    HighsSorted offsets :=
  h.imp fun hab => Nat.div_le_div_right hab

/-- The pointers stand for offsets whose high parts never decrease: the high part of every offset
has a place, and the place of a high part is the number of offsets before it. -/
structure Packs (p : PackedPointers) (offsets : List Nat) : Prop where
  sorted : HighsSorted offsets
  low : p.low.toList = offsets.map UInt16.ofNat
  reached : ∀ o ∈ offsets, o / highUnit < p.highStarts.size
  least : ∀ h < p.highStarts.size, ∃ o ∈ offsets, h ≤ o / highUnit
  starts : ∀ h (hh : h < p.highStarts.size),
    p.highStarts[h] = offsets.countP fun o => o / highUnit < h

/-- No pointers stand for no offsets. -/
theorem packs_empty : empty.Packs [] := by
  refine ⟨List.Pairwise.nil, rfl, fun o h => ?_, fun h hh => ?_, fun h hh => ?_⟩
  · simp at h
  · simp [empty] at hh
  · simp [empty] at hh

/-- Adding an offset whose high part is not below those before keeps the invariant. -/
theorem Packs.push {p : PackedPointers} {offsets : List Nat} (hp : p.Packs offsets) {offset : Nat}
    (hs : HighsSorted (offsets ++ [offset])) : (p.push offset).Packs (offsets ++ [offset]) := by
  have hdiv : ∀ o ∈ offsets, o / highUnit ≤ offset / highUnit :=
    fun o ho => (List.pairwise_append.mp hs).2.2 o ho offset (List.mem_singleton_self offset)
  have hsize : (p.push offset).highStarts.size =
      p.highStarts.size + (offset / highUnit + 1 - p.highStarts.size) := by
    simp [PackedPointers.push]
  have hlow : p.low.size = offsets.length := by
    rw [← Array.length_toList, hp.low, List.length_map]
  refine ⟨hs, ?_, ?_, ?_, ?_⟩
  · simp [PackedPointers.push, hp.low]
  · -- Places are added up to the high part of the new offset.
    intro o ho
    rw [hsize]
    rcases List.mem_append.mp ho with ho | ho
    · have := hp.reached o ho
      omega
    · rw [List.mem_singleton.mp ho]
      omega
  · -- A place that is added is at most the high part of the new offset, which reaches it.
    intro h hh
    rw [hsize] at hh
    by_cases hold : h < p.highStarts.size
    · obtain ⟨o, ho, hho⟩ := hp.least h hold
      exact ⟨o, List.mem_append_left _ ho, hho⟩
    · exact ⟨offset, by simp, by omega⟩
  · intro h hh
    have hh' := hh
    rw [hsize] at hh'
    rw [List.countP_append]
    by_cases hold : h < p.highStarts.size
    · -- A high part that was reached before is at most that of the new offset.
      obtain ⟨o, ho, hho⟩ := hp.least h hold
      have hnew : ¬ offset / highUnit < h := by
        have := hdiv o ho
        omega
      have hget : (p.push offset).highStarts[h] = p.highStarts[h] := by
        simp [PackedPointers.push, hold]
      rw [hget, hp.starts h hold]
      simp [hnew]
    · -- A high part that is new is above those of all offsets before.
      have hget : (p.push offset).highStarts[h] = p.low.size := by
        simp [PackedPointers.push, Array.getElem_append, hold]
      have hall : (offsets.countP fun o => decide (o / highUnit < h)) = offsets.length := by
        rw [List.countP_eq_length]
        intro o ho
        have := hp.reached o ho
        exact decide_eq_true (by omega)
      have hnew : ¬ offset / highUnit < h := by omega
      rw [hget, hall, hlow]
      simp [hnew]

/-- Offsets whose high parts never decrease are packed. -/
theorem packs_foldl_push {done : List Nat} {p : PackedPointers} (hp : p.Packs done)
    (offsets : List Nat) (hs : HighsSorted (done ++ offsets)) :
    (offsets.foldl PackedPointers.push p).Packs (done ++ offsets) := by
  induction offsets generalizing p done with
  | nil => simpa using hp
  | cons offset offsets ih =>
    have hs' : HighsSorted (done ++ [offset] ++ offsets) := by
      rw [List.append_assoc]
      exact hs
    have hnext := ih (hp.push (List.Pairwise.sublist (List.sublist_append_left _ _) hs')) hs'
    rw [List.append_assoc] at hnext
    exact hnext

/-- Where high parts never decrease, as many offsets are below one as stand before the first that
reaches it. -/
theorem countP_le_iff {offsets : List Nat} (hs : HighsSorted offsets) (h i : Nat)
    (hi : i < offsets.length) :
    (offsets.countP fun o => o / highUnit < h) ≤ i ↔ h ≤ offsets[i] / highUnit := by
  -- The offsets below the high part come first.
  have hfirst : offsets.Pairwise fun a b =>
      decide (b / highUnit < h) = true → decide (a / highUnit < h) = true := by
    refine hs.imp fun {a b} hab hb => ?_
    simp only [decide_eq_true_eq] at hb ⊢
    omega
  have hcount := Bisect.lt_countP_iff hfirst i hi
  rw [decide_eq_true_eq] at hcount
  omega

/-- The high part that `get` counts is that of the offset. -/
theorem Packs.boundary_eq {p : PackedPointers} {offsets : List Nat} (hp : p.Packs offsets) (i : Nat)
    (hi : i < offsets.length) :
    Bisect.boundary p.highStarts (fun start => start ≤ i) = offsets[i] / highUnit + 1 := by
  -- The places at or before `i` are those of the high parts up to the offset's.
  have hstart : ∀ h (hh : h < p.highStarts.size),
      decide (p.highStarts[h] ≤ i) = true ↔ h ≤ offsets[i] / highUnit := by
    intro h hh
    rw [decide_eq_true_eq, hp.starts h hh]
    exact countP_le_iff hp.sorted h i hi
  have hspec := Bisect.boundary_spec p.highStarts (fun start => decide (start ≤ i))
    (fun j k hk hjk hholds => by
      rw [hstart k hk] at hholds
      rw [hstart j (by omega)]
      omega)
  have hreach := hp.reached _ (List.getElem_mem hi)
  have hle := Bisect.boundary_le p.highStarts fun start => decide (start ≤ i)
  generalize Bisect.boundary p.highStarts (fun start => decide (start ≤ i)) = b at *
  -- The boundary is neither at the offset's high part nor past the next one.
  have hlow := (hspec _ hreach).mp ((hstart _ hreach).mpr (Nat.le_refl _))
  by_contra hne
  have hnext : offsets[i] / highUnit + 1 < p.highStarts.size := by omega
  have := (hstart _ hnext).mp ((hspec _ hnext).mpr (by omega))
  omega

/-- Packed offsets are given back. -/
theorem Packs.get_eq {p : PackedPointers} {offsets : List Nat} (hp : p.Packs offsets) (i : Nat)
    (hi : i < offsets.length) : p.get i = offsets[i] := by
  have hlow : p.low.getD i 0 = UInt16.ofNat offsets[i] := by
    rw [Array.getD_eq_getD_getElem?, ← Array.getElem?_toList, hp.low]
    simp [hi]
  unfold PackedPointers.get
  rw [hp.boundary_eq i hi, hlow]
  simp only [highUnit, UInt16.toNat_ofNat']
  omega

end PackedPointers

instance : LawfulPointers PackedPointers where
  size_ofOffsets offsets := by
    show (offsets.foldl PackedPointers.push .empty).low.size = offsets.length
    rw [← Array.length_toList, PackedPointers.low_foldl_push]
    simp [PackedPointers.empty]
  get_ofOffsets offsets hs i h := by
    have hp := PackedPointers.packs_foldl_push PackedPointers.packs_empty offsets
      (PackedPointers.highsSorted_of_pairwise hs)
    exact hp.get_eq i h

namespace PointerArray

variable {P : Type} [PointerArray P]

/-- What the check of the pointers of `parents` nodes into `children` ones ensures. -/
structure Bounds (p : P) (parents children : Nat) : Prop where
  size_eq : size p = parents + 1
  le_children : ∀ i < size p, get p i ≤ children
  get_mono : ∀ i j, i ≤ j → j < size p → get p i ≤ get p j

/-- A pass over pointers that ends well has met them in order, none above the number of children. -/
theorem foldlM_spec (p : P) (children : Nat) (places : List Nat) (least last : Nat)
    (h : places.foldlM (m := Except Flaw) (fun least i =>
      let offset := get p i
      if offset < least ∨ children < offset then .error (.pointerOrder i) else .ok offset) least =
        .ok last) :
    (least :: places.map (get p)).IsChain (· ≤ ·) ∧ ∀ i ∈ places, get p i ≤ children := by
  induction places generalizing least with
  | nil => simp
  | cons i places ih =>
    rw [List.foldlM_cons] at h
    obtain ⟨offset, hoffset, h⟩ := bind_eq_ok.mp h
    obtain ⟨hok, hoffset⟩ := ite_error_eq_ok.mp hoffset
    obtain rfl := Except.ok.inj hoffset
    obtain ⟨hchain, hbound⟩ := ih _ h
    refine ⟨?_, ?_⟩
    · rw [List.map_cons, List.isChain_cons_cons]
      exact ⟨by omega, hchain⟩
    · intro j hj
      rcases List.mem_cons.mp hj with rfl | hj
      · omega
      · exact hbound j hj

/-- Pointers that pass the check are as many as they have to be, in order and in range. -/
theorem validate_spec {p : P} {parents children : Nat} (h : validate p parents children = .ok ()) :
    Bounds p parents children := by
  unfold validate at h
  obtain ⟨hsize, h⟩ := ite_error_eq_ok.mp h
  obtain ⟨last, hfold, -⟩ := bind_eq_ok.mp h
  -- The pass met the pointers of all places, each at least the one before it.
  obtain ⟨hchain, hbound⟩ := foldlM_spec p children _ 0 last hfold
  have hpair : ((List.range (size p)).map (get p)).Pairwise (· ≤ ·) :=
    (List.pairwise_cons.mp (List.isChain_iff_pairwise.mp hchain)).2
  refine ⟨by omega, fun i hi => hbound i (List.mem_range.mpr hi), fun i j hij hj => ?_⟩
  rcases Nat.lt_or_eq_of_le hij with hlt | rfl
  · have := List.pairwise_iff_getElem.mp hpair i j (by simp; omega) (by simpa using hj) hlt
    simpa using this
  · exact Nat.le_refl _

end PointerArray

end BackoffLM

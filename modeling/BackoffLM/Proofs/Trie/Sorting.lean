import BackoffLM.Index.Trie
import Mathlib.Data.List.Basic
import Mathlib.Data.List.Lex

/-!
# The levels of a trie are sorted and keep the first entry of each key

A level is sorted by key, freed of repeated keys, and cut to the keys with a parent.
`sortLevel_sorted` says that its keys increase strictly, and `find?_sortLevel` which entries it
holds: under a key with a parent the first entry of the file for it, and nothing under any other
key. Sorting keeps the order of entries with one key (`find?_mergeSort`), so that the first of them
in the file is still the first when repeated keys are erased (`find?_eraseRepsBy`).
-/

namespace BackoffLM.Trie

namespace Keyed

/-- Keys that may stand in one order and the next may stand in the first and the last. -/
theorem mayPrecede_trans (a b c : Keyed) (hab : a.mayPrecede b = true)
    (hbc : b.mayPrecede c = true) : a.mayPrecede c = true := by
  simp only [mayPrecede, Bool.not_eq_true', decide_eq_false_iff_not, not_lt] at *
  exact le_trans hab hbc

/-- Of two keys one may stand before the other. -/
theorem mayPrecede_total (a b : Keyed) : (a.mayPrecede b || b.mayPrecede a) = true := by
  simp only [mayPrecede, Bool.or_eq_true, Bool.not_eq_true', decide_eq_false_iff_not, not_lt]
  exact le_total a.key b.key

/-- Whether two entries are for one n-gram. -/
abbrev sameKey (a b : Keyed) : Bool := a.key == b.key

/-- Whether an entry has a key. -/
abbrev hasKey (k : Key) (e : Keyed) : Bool := e.key == k

end Keyed

open Keyed (mayPrecede sameKey hasKey)

/-! ## Erasing repeated keys -/

section EraseReps

variable {α : Type} (r : α → α → Bool)

/-- The loop of `eraseRepsBy` puts what it keeps after what it has kept. -/
theorem eraseRepsBy_loop (a : α) (l acc : List α) :
    List.eraseRepsBy.loop r a l acc = acc.reverse ++ List.eraseRepsBy.loop r a l [] := by
  induction l generalizing a acc with
  | nil => simp [List.eraseRepsBy.loop]
  | cons b l ih =>
    unfold List.eraseRepsBy.loop
    cases r a b with
    | true => exact ih a acc
    | false =>
      dsimp only
      rw [ih b (a :: acc), ih b [a]]
      simp

/-- Of two elements at the front that count as one the first stays. -/
theorem eraseRepsBy_cons_cons (a b : α) (l : List α) :
    (a :: b :: l).eraseRepsBy r =
      if r a b then (a :: l).eraseRepsBy r else a :: (b :: l).eraseRepsBy r := by
  show List.eraseRepsBy.loop r a (b :: l) [] = _
  rw [List.eraseRepsBy.loop]
  cases r a b with
  | true => rfl
  | false =>
    dsimp only
    rw [eraseRepsBy_loop]
    rfl

/-- What stays stands in the same order. -/
theorem eraseRepsBy_sublist (l : List α) : (l.eraseRepsBy r).Sublist l := by
  match l with
  | [] => exact List.Sublist.refl []
  | a :: l =>
    induction l generalizing a with
    | nil => exact List.Sublist.refl [a]
    | cons b l ih =>
      rw [eraseRepsBy_cons_cons]
      split
      · exact (ih a).trans (List.Sublist.cons_cons a (List.sublist_cons_self b l))
      · exact (ih b).cons_cons a

/-- Something stays where there was something. -/
theorem eraseRepsBy_ne_nil {l : List α} (h : l ≠ []) : l.eraseRepsBy r ≠ [] := by
  match l with
  | [] => exact absurd rfl h
  | a :: l =>
    induction l generalizing a with
    | nil => exact List.cons_ne_nil a []
    | cons b l ih =>
      rw [eraseRepsBy_cons_cons]
      split
      · exact ih a (List.cons_ne_nil a l)
      · exact List.cons_ne_nil a _

section Ordered

variable {β : Type} (f : α → β)

/-- Where elements count as one when they have one value, every value stays. -/
theorem exists_mem_eraseRepsBy {l : List α}
    (hr : ∀ x ∈ l, ∀ y ∈ l, r x y = true ↔ f x = f y) {x : α} (hx : x ∈ l) :
    ∃ y ∈ l.eraseRepsBy r, f y = f x := by
  match l with
  | [] => exact absurd hx List.not_mem_nil
  | a :: l =>
    induction l generalizing a x with
    | nil => exact ⟨x, hx, rfl⟩
    | cons b l ih =>
      rw [eraseRepsBy_cons_cons]
      split
      · rename_i hsame
        have hab := (hr a List.mem_cons_self b (by simp)).mp hsame
        have hr' : ∀ x ∈ a :: l, ∀ y ∈ a :: l, r x y = true ↔ f x = f y := fun x hx y hy =>
          hr x (List.mem_cons.mpr ((List.mem_cons.mp hx).imp_right (List.mem_cons_of_mem b)))
            y (List.mem_cons.mpr ((List.mem_cons.mp hy).imp_right (List.mem_cons_of_mem b)))
        -- The element that goes has the value of the one before it.
        rcases List.mem_cons.mp hx with rfl | hx
        · exact ih x hr' List.mem_cons_self
        · rcases List.mem_cons.mp hx with rfl | hx
          · obtain ⟨y, hy, hvalue⟩ := ih a hr' List.mem_cons_self
            exact ⟨y, hy, hvalue.trans hab⟩
          · exact ih a hr' (List.mem_cons_of_mem a hx)
      · rcases List.mem_cons.mp hx with rfl | hx
        · exact ⟨x, List.mem_cons_self, rfl⟩
        · obtain ⟨y, hy, hvalue⟩ := ih b (fun x hx y hy =>
            hr x (List.mem_cons_of_mem a hx) y (List.mem_cons_of_mem a hy)) hx
          exact ⟨y, List.mem_cons_of_mem a hy, hvalue⟩

/-- Where values do not decrease, those that stay increase. -/
theorem pairwise_eraseRepsBy [PartialOrder β] {l : List α}
    (hr : ∀ x ∈ l, ∀ y ∈ l, r x y = true ↔ f x = f y) (h : l.Pairwise fun x y => f x ≤ f y) :
    (l.eraseRepsBy r).Pairwise fun x y => f x < f y := by
  cases l with
  | nil => exact List.Pairwise.nil
  | cons a l =>
    induction l generalizing a with
    | nil => exact List.pairwise_singleton _ a
    | cons b l ih =>
      obtain ⟨hfirst, hrest⟩ := List.pairwise_cons.mp h
      rw [eraseRepsBy_cons_cons]
      split
      · refine ih a (fun x hx y hy => ?_) (List.pairwise_cons.mpr
          ⟨fun c hc => hfirst c (List.mem_cons_of_mem b hc), (List.pairwise_cons.mp hrest).2⟩)
        exact hr x (List.mem_cons.mpr ((List.mem_cons.mp hx).imp_right (List.mem_cons_of_mem b)))
          y (List.mem_cons.mpr ((List.mem_cons.mp hy).imp_right (List.mem_cons_of_mem b)))
      · rename_i hdiff
        refine List.pairwise_cons.mpr ⟨fun c hc => ?_, ih b (fun x hx y hy =>
          hr x (List.mem_cons_of_mem a hx) y (List.mem_cons_of_mem a hy)) hrest⟩
        -- Values that differ and do not decrease increase, and those after them are no less.
        have hab : f a < f b := lt_of_le_of_ne (hfirst b List.mem_cons_self) fun heq =>
          hdiff ((hr a List.mem_cons_self b (by simp)).mpr heq)
        rcases List.mem_cons.mp ((eraseRepsBy_sublist r (b :: l)).mem hc) with rfl | hc
        · exact hab
        · exact lt_of_lt_of_le hab ((List.pairwise_cons.mp hrest).1 c hc)

end Ordered

end EraseReps

/-- Erasing repeated keys leaves the first entry of each. -/
theorem find?_eraseRepsBy (l : List Keyed) (k : Key) :
    (l.eraseRepsBy sameKey).find? (hasKey k) = l.find? (hasKey k) := by
  match l with
  | [] => rfl
  | a :: l =>
    induction l generalizing a with
    | nil => rfl
    | cons b l ih =>
      rw [eraseRepsBy_cons_cons]
      split
      · -- The second of two equal keys goes, which the first hides from the search anyway.
        rename_i hsame
        have hkey : a.key = b.key := by simpa using hsame
        rw [ih a, List.find?_cons, List.find?_cons, List.find?_cons, hasKey, hasKey, hkey]
        cases b.key == k <;> rfl
      · rw [List.find?_cons, ih b, List.find?_cons (a := a)]

/-- In a sorted list no key is repeated after that. -/
theorem eraseRepsBy_sorted (l : List Keyed) (h : l.Pairwise fun a b => a.mayPrecede b = true) :
    (l.eraseRepsBy sameKey).Pairwise fun a b => a.key < b.key := by
  refine pairwise_eraseRepsBy sameKey Keyed.key (fun a _ b _ => beq_iff_eq)
    (h.imp fun {a b} hab => ?_)
  simpa [mayPrecede] using hab

/-! ## Sorting -/

/-- The entries with one key stand in a sorted list as they stood before. -/
theorem find?_mergeSort (l : List Keyed) (k : Key) :
    (l.mergeSort mayPrecede).find? (hasKey k) = l.find? (hasKey k) := by
  -- Entries of one key are in order already, so the stable sort moves none past another.
  have hequal : (l.filter (hasKey k)).Pairwise fun a b => a.mayPrecede b = true := by
    refine List.pairwise_of_forall_mem_list fun a ha b hb => ?_
    have hka : a.key = k := by simpa [hasKey] using (List.mem_filter.mp ha).2
    have hkb : b.key = k := by simpa [hasKey] using (List.mem_filter.mp hb).2
    simp [mayPrecede, hka, hkb]
  have hsub : (l.filter (hasKey k)).Sublist (l.mergeSort mayPrecede) :=
    List.sublist_mergeSort Keyed.mayPrecede_trans Keyed.mayPrecede_total hequal
      List.filter_sublist
  have hsub' : (l.filter (hasKey k)).Sublist ((l.mergeSort mayPrecede).filter (hasKey k)) := by
    have := hsub.filter (hasKey k)
    rwa [List.filter_filter, show (fun a => hasKey k a && hasKey k a) = hasKey k by simp] at this
  have hlen := ((List.mergeSort_perm l mayPrecede).filter (hasKey k)).length_eq
  rw [← List.head?_filter, ← List.head?_filter, hsub'.eq_of_length hlen.symm]

/-- The entries of a level that stay, in the order of their keys. -/
theorem sortLevel_sorted (n : Nat) (parents : List Key) (level : Array Entry) :
    ((sortLevel n parents level).map Keyed.key).Pairwise (· < ·) := by
  rw [List.pairwise_map]
  unfold sortLevel
  refine List.Pairwise.filter _ (eraseRepsBy_sorted _ ?_)
  exact List.pairwise_mergeSort Keyed.mayPrecede_trans Keyed.mayPrecede_total _

/-- An entry stays exactly when it is the first of the file with its words and its key has a
parent. -/
theorem find?_sortLevel (n : Nat) (parents : List Key) (level : Array Entry) (k : Key) :
    (sortLevel n parents level).find? (hasKey k) =
      if k.take (n - 1) ∈ parents then
        (level.toList.find? fun e => e.words.reverse == k).map fun e => ⟨k, e.weights⟩
      else none := by
  unfold sortLevel
  dsimp only
  rw [List.find?_filter]
  -- Whether an entry under the key has a parent is a matter of the key alone.
  have hparent : (fun e : Keyed => decide
      ((Std.HashSet.ofList parents).contains (e.key.take (n - 1)) = true ∧ hasKey k e = true)) =
        fun e => decide (k.take (n - 1) ∈ parents) && hasKey k e := by
    funext e
    by_cases he : e.key = k
    · simp [hasKey, he, Std.HashSet.contains_ofList]
    · have hne : hasKey k e = false := by simpa [hasKey] using he
      simp [hne]
  rw [hparent]
  split
  · rename_i hk
    simp only [hk, decide_true, Bool.true_and]
    show (List.eraseRepsBy sameKey _).find? (hasKey k) = _
    rw [find?_eraseRepsBy, find?_mergeSort, List.find?_map]
    have hcomp : (hasKey k ∘ fun e : Entry => (⟨e.words.reverse, e.weights⟩ : Keyed)) =
        fun e => e.words.reverse == k := rfl
    rw [hcomp]
    cases hfind : level.toList.find? fun e => e.words.reverse == k with
    | none => rfl
    | some e =>
      have := List.find?_some hfind
      simp only [beq_iff_eq] at this
      simp [this]
  · rename_i hk
    simp [hk]

/-- Every key of a level has a parent. -/
theorem take_mem_of_mem_sortLevel {n : Nat} {parents : List Key} {level : Array Entry} {e : Keyed}
    (h : e ∈ sortLevel n parents level) : e.key.take (n - 1) ∈ parents := by
  have := (List.mem_filter.mp h).2
  simpa [Std.HashSet.contains_ofList] using this

/-- Every key of a level is that of an entry of the file. -/
theorem exists_entry_of_mem_sortLevel {n : Nat} {parents : List Key} {level : Array Entry}
    {e : Keyed} (h : e ∈ sortLevel n parents level) :
    ∃ entry ∈ level.toList, e.key = entry.words.reverse := by
  have hmem := (eraseRepsBy_sublist _ _).mem (List.mem_filter.mp h).1
  rw [List.mem_mergeSort] at hmem
  obtain ⟨entry, hentry, rfl⟩ := List.mem_map.mp hmem
  exact ⟨entry, hentry, rfl⟩

end BackoffLM.Trie

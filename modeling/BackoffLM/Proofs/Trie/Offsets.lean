import BackoffLM.Proofs.Bisect
import BackoffLM.Proofs.Trie.Sorting
import Mathlib.Data.List.Sort
import Mathlib.Data.List.TakeWhile

/-!
# Child offsets delimit the children of each parent

The keys of a level and of the one above are sorted, and cutting a key to a given length keeps the
order (`not_take_lt_take`). The pass of `childOffsets` over both then gives for each parent the
number of children whose prefix is smaller (`childOffsets_eq`). So offsets never decrease
(`childOffsets_sorted`), and `mem_children_iff` says that a child stands between the offset of a
parent and the next one exactly when the parent is its prefix. Together the offsets delimit the
children (`Delimits`), whichever parents have none (`delimits_childOffsets`).
-/

namespace BackoffLM.Trie

/-- Cutting keys to one length keeps their order. -/
theorem not_take_lt_take {a b : Key} (h : a < b) (n : Nat) : ¬ b.take n < a.take n := by
  induction n generalizing a b with
  | zero => simp
  | succ n ih =>
    cases a with
    | nil => simp
    | cons x a =>
      cases b with
      | nil => simp at h
      | cons y b =>
        rw [List.take_succ_cons, List.take_succ_cons, List.cons_lt_cons_iff]
        rcases List.cons_lt_cons_iff.mp h with hxy | ⟨hxy, hab⟩
        · rintro (hyx | ⟨hyx, -⟩)
          · exact lt_asymm hxy hyx
          · exact lt_irrefl _ (hyx ▸ hxy)
        · rintro (hyx | ⟨-, hlt⟩)
          · exact lt_irrefl _ (hxy ▸ hyx)
          · exact ih hab hlt

/-- Keys of one prefix are ordered by the word after it. -/
theorem append_singleton_lt_iff {p : Key} {x y : WordId} : p ++ [x] < p ++ [y] ↔ x < y := by
  induction p with
  | nil => simp [List.cons_lt_cons_iff]
  | cons z p ih =>
    rw [List.cons_append, List.cons_append, List.cons_lt_cons_iff, ih]
    simp

/-- The number of children that stand before the children of a parent. -/
def countBefore (n : Nat) (children : List Key) (parent : Key) : Nat :=
  children.countP fun child => child.take n < parent

section

variable {n : Nat} {parents children : List Key}

/-- Sorted children whose prefix is below a key come first. -/
theorem before_first (hc : children.Pairwise (· < ·)) (parent : Key) :
    children.Pairwise fun a b =>
      decide (b.take n < parent) = true → decide (a.take n < parent) = true := by
  refine hc.imp fun {a b} hab hb => ?_
  simp only [decide_eq_true_eq] at hb ⊢
  exact lt_of_le_of_lt (not_lt.mp (not_take_lt_take hab n)) hb

/-- The pass leaves behind what stands before the children of a parent. -/
theorem drop_countBefore (hc : children.Pairwise (· < ·)) (parent : Key) :
    children.drop (countBefore n children parent) =
      children.dropWhile fun child => child.take n < parent := by
  have hpassed : (children.takeWhile fun child => child.take n < parent).length =
      countBefore n children parent := Bisect.length_takeWhile (before_first hc parent)
  have hleft := @List.drop_left _ (children.takeWhile fun child => child.take n < parent)
    (children.dropWhile fun child => child.take n < parent)
  rw [List.takeWhile_append_dropWhile, hpassed] at hleft
  exact hleft

/-- The children that the pass has left behind stand before those of every later parent. -/
theorem countBefore_eq_add (hc : children.Pairwise (· < ·)) {parent later : Key}
    (hlater : parent < later) :
    countBefore n children later = countBefore n children parent +
      countBefore n (children.drop (countBefore n children parent)) later := by
  have hall : ((children.takeWhile fun child => decide (child.take n < parent)).countP
      fun child => decide (child.take n < later)) = countBefore n children parent := by
    rw [countBefore, ← Bisect.length_takeWhile (before_first hc parent), List.countP_eq_length]
    intro c hmem
    have := List.mem_takeWhile_imp hmem
    simp only [decide_eq_true_eq] at this ⊢
    exact lt_trans this hlater
  rw [drop_countBefore hc]
  conv_lhs => rw [countBefore, ← List.takeWhile_append_dropWhile (l := children)
    (p := fun child => decide (child.take n < parent)), List.countP_append, hall]
  rfl

/-- The pass over parents and children counts for each parent the children before its own. -/
theorem childOffsets_eq (hp : parents.Pairwise (· < ·)) (hn : ∀ p ∈ parents, p.length = n)
    (hc : children.Pairwise (· < ·)) (start : Nat) :
    childOffsets parents children start =
      parents.map (fun p => start + countBefore n children p) ++ [start + children.length] := by
  induction parents generalizing children start with
  | nil => rfl
  | cons parent parents ih =>
    obtain ⟨hfirst, hrest⟩ := List.pairwise_cons.mp hp
    have hlen : parent.length = n := hn parent (by simp)
    have hpassed : (children.takeWhile fun child => child.take n < parent).length =
        countBefore n children parent := Bisect.length_takeWhile (before_first hc parent)
    have hle : countBefore n children parent ≤ children.length := List.countP_le_length
    unfold childOffsets
    rw [hlen]
    dsimp only
    rw [hpassed, ih hrest (fun p h => hn p (List.mem_cons_of_mem parent h))
      (hc.sublist (List.drop_sublist _ _)), List.map_cons, List.cons_append, List.length_drop]
    congr 1
    congr 1
    · -- The rest of the pass counts on from the children before this parent's.
      refine List.map_congr_left fun later hmem => ?_
      rw [countBefore_eq_add hc (hfirst later hmem), Nat.add_assoc]
    · congr 1
      omega

/-- There is one offset for each parent and one for the end. -/
theorem length_childOffsets (parents children : List Key) (start : Nat) :
    (childOffsets parents children start).length = parents.length + 1 := by
  induction parents generalizing children start with
  | nil => rfl
  | cons parent parents ih =>
    unfold childOffsets
    dsimp only
    rw [List.length_cons, ih, List.length_cons]

/-- More children stand before those of a greater parent. -/
theorem countBefore_mono {p q : Key} (h : p < q) :
    countBefore n children p ≤ countBefore n children q := by
  refine List.countP_mono_left fun c _ hlt => ?_
  simp only [decide_eq_true_eq] at hlt ⊢
  exact lt_trans hlt h

/-- Offsets never decrease. -/
theorem childOffsets_sorted (hp : parents.Pairwise (· < ·)) (hn : ∀ p ∈ parents, p.length = n)
    (hc : children.Pairwise (· < ·)) (start : Nat) :
    (childOffsets parents children start).Pairwise (· ≤ ·) := by
  rw [childOffsets_eq hp hn hc, List.pairwise_append]
  refine ⟨?_, List.pairwise_singleton _ _, ?_⟩
  · rw [List.pairwise_map]
    refine hp.imp fun {p q} hpq => ?_
    have : countBefore n children p ≤ countBefore n children q := countBefore_mono hpq
    omega
  · intro o ho e he
    obtain ⟨p, -, rfl⟩ := List.mem_map.mp ho
    rw [List.mem_singleton.mp he]
    have hle : countBefore n children p ≤ children.length := List.countP_le_length
    omega

/-- No offset passes the number of children. -/
theorem le_of_mem_childOffsets (hp : parents.Pairwise (· < ·)) (hn : ∀ p ∈ parents, p.length = n)
    (hc : children.Pairwise (· < ·)) {offset : Nat} (h : offset ∈ childOffsets parents children 0) :
    offset ≤ children.length := by
  rw [childOffsets_eq hp hn hc, Nat.zero_add] at h
  rcases List.mem_append.mp h with hfront | hlast
  · obtain ⟨p, -, rfl⟩ := List.mem_map.mp hfront
    rw [Nat.zero_add]
    exact List.countP_le_length
  · rw [List.mem_singleton.mp hlast]

/-- The offset of a parent. -/
theorem getElem?_childOffsets (hp : parents.Pairwise (· < ·)) (hn : ∀ p ∈ parents, p.length = n)
    (hc : children.Pairwise (· < ·)) (i : Nat) (hi : i < parents.length) :
    (childOffsets parents children 0)[i]? = some (countBefore n children parents[i]) := by
  rw [childOffsets_eq hp hn hc, List.getElem?_append_left (by simpa using hi), List.getElem?_map,
    List.getElem?_eq_getElem hi, Option.map_some, Nat.zero_add]

/-- The offset after the last parent. -/
theorem getElem?_childOffsets_length (hp : parents.Pairwise (· < ·))
    (hn : ∀ p ∈ parents, p.length = n) (hc : children.Pairwise (· < ·)) :
    (childOffsets parents children 0)[parents.length]? = some children.length := by
  simp [childOffsets_eq hp hn hc]

/-- A child is at or after the children of a parent exactly when its own parent is at or after that
one. -/
theorem countBefore_le_iff (hp : parents.Pairwise (· < ·)) (hc : children.Pairwise (· < ·))
    {i j c : Nat} (hi : i < parents.length) (hj : j < parents.length) (hcl : c < children.length)
    (hcut : parents[j] = children[c].take n) :
    countBefore n children parents[i] ≤ c ↔ i ≤ j := by
  have hbefore : c < countBefore n children parents[i] ↔ parents[j] < parents[i] := by
    rw [countBefore, Bisect.lt_countP_iff (before_first hc _) c hcl, decide_eq_true_eq, hcut]
  rw [← Nat.not_lt, hbefore, hp.sortedLT.getElem_lt_getElem_iff, Nat.not_lt]

/-- A child stands between the offset of a parent and the next one exactly when the parent is its
prefix. -/
theorem mem_children_iff (hp : parents.Pairwise (· < ·)) (hn : ∀ p ∈ parents, p.length = n)
    (hc : children.Pairwise (· < ·)) (hpre : ∀ c ∈ children, c.take n ∈ parents)
    (i : Nat) (hi : i < parents.length) {start stop : Nat}
    (hstart : (childOffsets parents children 0)[i]? = some start)
    (hstop : (childOffsets parents children 0)[i + 1]? = some stop)
    (c : Nat) (hcl : c < children.length) :
    (start ≤ c ∧ c < stop) ↔ children[c].take n = parents[i] := by
  obtain ⟨j, hj, hcut⟩ := List.getElem_of_mem (hpre _ (List.getElem_mem hcl))
  have hlow : start ≤ c ↔ i ≤ j := by
    rw [getElem?_childOffsets hp hn hc i hi, Option.some.injEq] at hstart
    rw [← hstart]
    exact countBefore_le_iff hp hc hi hj hcl hcut
  have hhigh : c < stop ↔ j ≤ i := by
    by_cases hlast : i + 1 < parents.length
    · -- The children end where those of the next parent start.
      rw [getElem?_childOffsets hp hn hc (i + 1) hlast, Option.some.injEq] at hstop
      have hnext := countBefore_le_iff hp hc hlast hj hcl hcut
      omega
    · -- After the last parent all children have been passed.
      have hend : i + 1 = parents.length := by omega
      rw [hend, getElem?_childOffsets_length hp hn hc, Option.some.injEq] at hstop
      omega
  rw [hlow, hhigh, ← hcut, hp.sortedLT.nodup.getElem_inj_iff]
  omega

/-- Offsets into children that delimit those of each parent, which share its `n` words. -/
structure Delimits (n : Nat) (parents children : List Key) (offsets : List Nat) : Prop where
  /-- There is one offset for each parent and one for the end. -/
  length_eq : offsets.length = parents.length + 1
  /-- Offsets never decrease. -/
  sorted : offsets.Pairwise (· ≤ ·)
  /-- The last is the number of children. -/
  last_eq : offsets.getLast? = some children.length
  /-- From the offset of a parent up to the next one stand the children whose prefix it is. -/
  mem_iff : ∀ i (hi : i < parents.length) c (hc : c < children.length),
    (offsets[i] ≤ c ∧ c < offsets[i + 1]) ↔ children[c].take n = parents[i]

/-- The offsets of sorted parents of one length delimit their sorted children, as long as each child
has a parent; how many words the children have beyond those of their parents does not matter. -/
theorem delimits_childOffsets (hp : parents.Pairwise (· < ·)) (hn : ∀ p ∈ parents, p.length = n)
    (hc : children.Pairwise (· < ·)) (hpre : ∀ c ∈ children, c.take n ∈ parents) :
    Delimits n parents children (childOffsets parents children 0) where
  length_eq := length_childOffsets parents children 0
  sorted := childOffsets_sorted hp hn hc 0
  last_eq := by
    rw [List.getLast?_eq_getElem?, length_childOffsets, Nat.add_sub_cancel,
      getElem?_childOffsets_length hp hn hc]
  mem_iff i hi c hcl := by
    have hcount := length_childOffsets parents children 0
    exact mem_children_iff hp hn hc hpre i hi (List.getElem?_eq_getElem (by omega))
      (List.getElem?_eq_getElem (by omega)) c hcl

end

/-- Five parents of which the first, the third and the last have no children. -/
theorem delimits_childOffsets_childless :
    let parents : List Key := [[0, 1], [0, 3], [1, 0], [2, 2], [4, 0]]
    let children : List Key := [[0, 3, 5], [0, 3, 7], [2, 2, 0]]
    parents.Pairwise (· < ·) ∧ (∀ p ∈ parents, p.length = 2) ∧ children.Pairwise (· < ·) ∧
      (∀ c ∈ children, c.take 2 ∈ parents) ∧
      childOffsets parents children 0 = [0, 0, 2, 2, 3, 3] ∧
      Delimits 2 parents children [0, 0, 2, 2, 3, 3] := by
  intro parents children
  have hp : parents.Pairwise (· < ·) := by decide
  have hn : ∀ p ∈ parents, p.length = 2 := by decide
  have hc : children.Pairwise (· < ·) := by decide
  have hpre : ∀ c ∈ children, c.take 2 ∈ parents := by decide
  have hoffsets : childOffsets parents children 0 = [0, 0, 2, 2, 3, 3] := by decide
  exact ⟨hp, hn, hc, hpre, hoffsets, hoffsets ▸ delimits_childOffsets hp hn hc hpre⟩

end BackoffLM.Trie

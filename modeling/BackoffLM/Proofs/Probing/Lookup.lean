import BackoffLM.Proofs.Arpa.Closure
import BackoffLM.Proofs.Probing.Hash
import BackoffLM.Proofs.Probing.Table
import BackoffLM.Proofs.Scoring.Walk
import Mathlib.Data.List.Find
import Mathlib.Data.List.Nodup

/-!
# Hash tables find the n-grams of their file

The tables keep no words, only the hashes of n-grams, so what they find is what the file holds as
long as no other n-gram has the hash of one that is looked up. `asked` lists the n-grams that a walk
looks up, the one that is missing included, and `Apart` says of some n-grams that those of one
length have different hashes. Where the entries of the file and the n-grams asked for are apart, the
walk is `Arpa.found` (`extensions_of_apart`); one step of it is `extend_ofArpa`. `Holds` sums up
what tables have of a file.
-/

namespace BackoffLM.Probing

/-! ## N-grams told apart -/

/-- No two different n-grams of one length have the same hash. -/
def Apart (ngrams : List (List WordId)) : Prop :=
  ∀ u ∈ ngrams, ∀ v ∈ ngrams, u.length = v.length → ngramHash u = ngramHash v → u = v

instance (ngrams : List (List WordId)) : Decidable (Apart ngrams) :=
  inferInstanceAs (Decidable (∀ u ∈ ngrams, ∀ v ∈ ngrams, u.length = v.length →
    ngramHash u = ngramHash v → u = v))

/-- Of fewer n-grams no two have the same hash either. -/
theorem Apart.subset {ngrams fewer : List (List WordId)} (h : Apart ngrams)
    (hsub : fewer ⊆ ngrams) : Apart fewer :=
  fun u hu v hv => h u (hsub hu) v (hsub hv)

section Append

variable {file first rest : List (List WordId)}

/-- What is apart for two rounds of lookups is for the first. -/
theorem Apart.of_append_left (h : Apart (file ++ (first ++ rest))) : Apart (file ++ first) := by
  rw [← List.append_assoc] at h
  exact h.subset (List.subset_append_left _ _)

/-- What is apart for two rounds of lookups is for the second. -/
theorem Apart.of_append_right (h : Apart (file ++ (first ++ rest))) : Apart (file ++ rest) := by
  refine h.subset (List.append_subset.mpr ⟨List.subset_append_left _ _, ?_⟩)
  rw [← List.append_assoc]
  exact List.subset_append_right _ _

end Append

/-! ## Lookups -/

/-- The n-grams that are looked up to put older words, newest first, before an n-gram: each result
as far as the one before is found. -/
def asked (p : Probing) : (ngram : List WordId) → (older : List WordId) → List (List WordId)
  | _, [] => []
  | ngram, word :: older =>
    (word :: ngram) ::
      match p.extend ngram.length (ngramHash ngram).toNat word with
      | none => []
      | some _ => asked p (word :: ngram) older

variable {a : Arpa}

/-- The tables of the orders from `n` on. -/
theorem getElem?_tablesFrom (order n : Nat) (sections : List (Array Entry)) (k : Nat) :
    (tablesFrom order n sections)[k]? =
      sections[k]?.map (Table.ofEntries ((n + k < order : Prop) : Bool)) := by
  induction sections generalizing n k with
  | nil => simp [tablesFrom]
  | cons s sections ih =>
    rw [tablesFrom]
    cases k with
    | zero => rfl
    | succ k =>
      rw [List.getElem?_cons_succ, List.getElem?_cons_succ, ih, Nat.add_assoc, Nat.add_comm 1 k]

/-- Each section has its table. -/
theorem getElem?_tables (a : Arpa) (k : Nat) :
    (ofArpa a).tables[k]? =
      a.ngrams[k]?.map (Table.ofEntries ((2 + k < a.order : Prop) : Bool)) := by
  rw [ofArpa, List.getElem?_toArray, getElem?_tablesFrom]

/-- There are as many tables as sections. -/
theorem length_tablesFrom (order n : Nat) (sections : List (Array Entry)) :
    (tablesFrom order n sections).length = sections.length := by
  induction sections generalizing n with
  | nil => rfl
  | cons s sections ih => rw [tablesFrom, List.length_cons, ih, List.length_cons]

/-- The tables have the order of their file. -/
theorem order_ofArpa (a : Arpa) : (ofArpa a).order = a.order := by
  rw [order, ofArpa, List.size_toArray, length_tablesFrom]
  rfl

/-- Where n-grams stand once, the last of them with some words is the first. -/
theorem find?_reverse_words {entries : List Entry} (h : (entries.map Entry.words).Nodup)
    (words : List WordId) :
    (entries.reverse.find? fun e => e.words == words) =
      entries.find? fun e => e.words == words := by
  cases hlast : entries.reverse.find? fun e => e.words == words with
  | none =>
    rw [List.find?_eq_none] at hlast
    symm
    rw [List.find?_eq_none]
    exact fun e he => hlast e (List.mem_reverse.mpr he)
  | some e =>
    have he := List.mem_reverse.mp (List.mem_of_find?_eq_some hlast)
    have hwords := List.find?_some hlast
    cases hfirst : entries.find? fun e => e.words == words with
    | none => exact absurd hwords (List.find?_eq_none.mp hfirst e he)
    | some f =>
      have hf := List.mem_of_find?_eq_some hfirst
      have hsame := List.find?_some hfirst
      -- Two entries with the same words are one.
      rw [beq_iff_eq] at hwords hsame
      rw [List.inj_on_of_nodup_map h he hf (hwords.trans hsame.symm)]

/-- One step of the search answers as the file does, when no other n-gram of the file has the hash
of the one looked up. -/
theorem extend_ofArpa (h : a.WellFormed) {ngram : List WordId} (hne : ngram ≠ []) {node : Node}
    (hnode : UInt64.ofNat node = ngramHash ngram) (word : WordId)
    (hapart : ∀ e ∈ a.entries, e.words.length = (word :: ngram).length →
      ngramHash e.words = ngramHash (word :: ngram) → e.words = word :: ngram) :
    (ofArpa a).extend ngram.length node word =
      (a.kept? (word :: ngram)).map fun weights =>
        ((ngramHash (word :: ngram)).toNat, weights) := by
  obtain ⟨k, hk⟩ : ∃ k, ngram.length = k + 1 :=
    ⟨ngram.length - 1, by have := List.length_pos_iff.mpr hne; omega⟩
  have hlen : (word :: ngram).length = k + 2 := by rw [List.length_cons, hk]
  rw [Arpa.kept?, Arpa.weights?_eq_section h.graded hlen, hlen, hk, extend]
  dsimp only
  rw [getElem?_tables, hnode, ← ngramHash_cons hne]
  cases hsec : a.ngrams[k]? with
  | none => rfl
  | some s =>
    have hs : s ∈ a.ngrams := List.mem_of_getElem? hsec
    have hentry : ∀ e ∈ s.toList, e ∈ a.entries := fun e he => List.mem_flatMap.mpr ⟨s, hs, he⟩
    have hkeys : ∀ e ∈ s.toList, ngramHash e.words ≠ emptyKey := fun e he =>
      ngramHash_ne_emptyKey (by have := h.graded k s hsec e he; omega)
    -- In the section the hash tells the n-gram from all others.
    have hwords : ∀ e ∈ s.toList.reverse,
        (ngramHash e.words == ngramHash (word :: ngram)) = (e.words == word :: ngram) := by
      intro e he
      have he := List.mem_reverse.mp he
      rw [Bool.eq_iff_iff, beq_iff_eq, beq_iff_eq]
      constructor
      · exact hapart e (hentry e he) (by rw [hlen]; exact h.graded k s hsec e he)
      · intro heq
        rw [heq]
    rw [Option.map_some, Option.bind_some]
    dsimp only
    rw [Table.find?_ofEntries _ s hkeys (ngramHash_ne_emptyKey (by omega)), List.find?_congr hwords,
      find?_reverse_words (h.distinct s hs), Nat.add_comm 2 k, Option.map_map, Option.map_map,
      Option.map_map]
    rfl

/-- Hash tables hold a file: they have its order and its unigrams, and where no other n-gram of the
file has the hash of one that is looked up, they answer with the weights that the file gives it. -/
structure Holds (p : Probing) (a : Arpa) : Prop where
  order_eq : p.order = a.order
  unigrams_eq : p.unigrams = a.unigrams
  extend_eq {ngram : List WordId} (word : WordId) : ngram ≠ [] →
    (∀ e ∈ a.entries, e.words.length = (word :: ngram).length →
      ngramHash e.words = ngramHash (word :: ngram) → e.words = word :: ngram) →
    p.extend ngram.length (ngramHash ngram).toNat word =
      (a.kept? (word :: ngram)).map fun weights =>
        ((ngramHash (word :: ngram)).toNat, weights)

/-- The tables of a file hold it. -/
theorem holds_ofArpa (h : a.WellFormed) : (ofArpa a).Holds a where
  order_eq := order_ofArpa a
  unigrams_eq := rfl
  extend_eq word hne := extend_ofArpa h hne UInt64.ofNat_toNat word

/-- The walk from an n-gram is that of the file, when no n-grams of the file and among those looked
up have the same hash. -/
theorem extensions_of_apart (h : a.WellFormed) {ngram : List WordId} (hne : ngram ≠ [])
    {node : Node} (hnode : UInt64.ofNat node = ngramHash ngram) (older : List WordId)
    (hapart : Apart (a.entries.map Entry.words ++ (ofArpa a).asked ngram older)) :
    NgramIndex.extensions (ofArpa a) ngram.length node older = a.found ngram older := by
  induction older generalizing ngram node with
  | nil => rfl
  | cons word older ih =>
    have hcollision : ∀ e ∈ a.entries, e.words.length = (word :: ngram).length →
        ngramHash e.words = ngramHash (word :: ngram) → e.words = word :: ngram := by
      intro e he
      refine hapart e.words ?_ (word :: ngram) ?_
      · exact List.mem_append_left _ (List.mem_map_of_mem he)
      · rw [asked]
        exact List.mem_append_right _ List.mem_cons_self
    -- The n-grams asked for go on as the search does, whose nodes are the hashes.
    have hstep := extend_ofArpa h hne hnode word hcollision
    have hhash := extend_ofArpa h hne UInt64.ofNat_toNat word hcollision
    rw [Arpa.found]
    cases hkept : a.kept? (word :: ngram) with
    | none =>
      rw [hkept] at hstep
      exact NgramIndex.extensions_of_none _ hstep older
    | some weights =>
      rw [hkept, Option.map_some] at hstep hhash
      rw [asked, hhash] at hapart
      have hlater : Apart (a.entries.map Entry.words ++
          ([word :: ngram] ++ (ofArpa a).asked (word :: ngram) older)) := hapart
      have hrest := ih (List.cons_ne_nil word ngram) UInt64.ofNat_toNat hlater.of_append_right
      rw [NgramIndex.extensions_of_some _ hstep, ← hrest, List.length_cons]

end BackoffLM.Probing

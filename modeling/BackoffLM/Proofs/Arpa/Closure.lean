import BackoffLM.Proofs.Arpa.WellFormed

/-!
# Closed files

A file is `Closed` when it has, with every n-gram of three words or more, the n-gram without its
last word and the one without its first. With that an n-gram that is in the file has all its
stretches in the file: `isSome_weights?_tail` and `isSome_weights?_dropLast` for one word less at
either end, which for n-grams of two words is what every file that was read satisfies. So the walk
`found` stops at no n-gram that has a longer one after it, and holds the weights of all that there
are (`getElem?_found`, `le_length_found_iff`).
-/

namespace BackoffLM.Arpa

/-- With every n-gram of three words or more, the file has the two of one word less in it. -/
def Closed (a : Arpa) : Prop :=
  ∀ e ∈ a.entries, 3 ≤ e.words.length →
    (∃ f ∈ a.entries, f.words = e.words.dropLast) ∧ ∃ f ∈ a.entries, f.words = e.words.tail

instance (a : Arpa) : Decidable a.Closed :=
  inferInstanceAs (Decidable (∀ e ∈ a.entries, 3 ≤ e.words.length →
    (∃ f ∈ a.entries, f.words = e.words.dropLast) ∧ ∃ f ∈ a.entries, f.words = e.words.tail))

/-- The n-gram of a word after the `m` newest words of a context, in reading order. -/
def ngramAfter (context : List WordId) (m : Nat) (word : WordId) : List WordId :=
  (context.take m).reverse ++ [word]

variable {a : Arpa}

/-- An n-gram of two words or more has weights when there is an entry for it. -/
theorem isSome_weights?_iff {words : List WordId} (h : 2 ≤ words.length) :
    (a.weights? words).isSome = true ↔ ∃ e ∈ a.entries, e.words = words := by
  rw [weights?_eq_entry a h, Option.isSome_map, List.find?_isSome]
  simp only [beq_iff_eq]

/-- A word has weights when it is in the vocabulary. -/
theorem isSome_weights?_singleton (word : Nat) :
    (a.weights? [word]).isSome = true ↔ word < a.unigrams.size := by
  show (a.unigrams[word]?).isSome = true ↔ _
  rw [isSome_getElem?]

/-- What is left of an n-gram is there as often as it is there. -/
theorem isSome_kept? (words : List WordId) : (a.kept? words).isSome = (a.weights? words).isSome :=
  Option.isSome_map

/-- The order of a file that was read is that of its last section. -/
theorem WellFormed.order_eq (h : a.WellFormed) : a.order = a.ngrams.length + 1 := by
  have hle : a.ngrams.length + 1 ≤ 6 := h.order_le
  show (a.ngrams.length + 1) % 256 = _
  omega

/-- The words of an entry are in the vocabulary. -/
theorem WellFormed.lt_of_mem (h : a.WellFormed) {e : Entry} (he : e ∈ a.entries) {word : Nat}
    (hw : word ∈ e.words) : word < a.unigrams.size := by
  obtain ⟨s, hs, hes⟩ := List.mem_flatMap.mp he
  exact h.known s hs e hes word hw

/-- With an n-gram a closed file has the one without its first word. -/
theorem isSome_weights?_tail (h : a.WellFormed) (hc : a.Closed) {words : List WordId}
    (hlen : 2 ≤ words.length) (hsome : (a.weights? words).isSome = true) :
    (a.weights? words.tail).isSome = true := by
  obtain ⟨e, he, rfl⟩ := (isSome_weights?_iff hlen).mp hsome
  by_cases hthree : 3 ≤ e.words.length
  · exact (isSome_weights?_iff (by rw [List.length_tail]; omega)).mpr (hc e he hthree).2
  · -- One word is left, which every file that was read has in its vocabulary.
    obtain ⟨x, y, hxy⟩ := List.length_eq_two.mp (show e.words.length = 2 by omega)
    rw [hxy, List.tail_cons, isSome_weights?_singleton]
    exact h.lt_of_mem he (by simp [hxy])

/-- With an n-gram a closed file has the one without its last word. -/
theorem isSome_weights?_dropLast (h : a.WellFormed) (hc : a.Closed) {words : List WordId}
    (hlen : 2 ≤ words.length) (hsome : (a.weights? words).isSome = true) :
    (a.weights? words.dropLast).isSome = true := by
  obtain ⟨e, he, rfl⟩ := (isSome_weights?_iff hlen).mp hsome
  by_cases hthree : 3 ≤ e.words.length
  · exact (isSome_weights?_iff (by rw [List.length_dropLast]; omega)).mpr (hc e he hthree).1
  · obtain ⟨x, y, hxy⟩ := List.length_eq_two.mp (show e.words.length = 2 by omega)
    rw [hxy, List.dropLast_cons_cons, List.dropLast_singleton, isSome_weights?_singleton]
    exact h.lt_of_mem he (by simp [hxy])

/-- With an n-gram a closed file has all that it ends in. -/
theorem isSome_weights?_suffix (h : a.WellFormed) (hc : a.Closed) (older : List WordId)
    {ngram : List WordId} (hne : ngram ≠ []) (hsome : (a.weights? (older ++ ngram)).isSome = true) :
    (a.weights? ngram).isSome = true := by
  induction older with
  | nil => exact hsome
  | cons word older ih =>
    have hpos := List.length_pos_iff.mpr hne
    have htail := isSome_weights?_tail h hc (by simp; omega) hsome
    exact ih htail

/-- The walk in a file finds no more than it is given. -/
theorem length_found_le (a : Arpa) (ngram older : List WordId) :
    (a.found ngram older).length ≤ older.length := by
  induction older generalizing ngram with
  | nil => simp [found]
  | cons word older ih =>
    rw [found]
    cases a.kept? (word :: ngram) with
    | none => simp
    | some weights =>
      have := ih (word :: ngram)
      simp only [List.length_cons]
      omega

/-- The walk in a closed file holds the weights of every n-gram that there is. -/
theorem getElem?_found (h : a.WellFormed) (hc : a.Closed) {ngram : List WordId} (hne : ngram ≠ [])
    (older : List WordId) {i : Nat} (hi : i < older.length) :
    (a.found ngram older)[i]?.map Prod.snd = a.kept? ((older.take (i + 1)).reverse ++ ngram) := by
  induction older generalizing ngram i with
  | nil => simp at hi
  | cons word older ih =>
    rw [found, List.take_succ_cons, List.reverse_cons, List.append_assoc, List.singleton_append]
    cases hkept : a.kept? (word :: ngram) with
    | none =>
      -- Nothing that ends in a missing n-gram is there.
      have hmissing : a.kept? ((older.take i).reverse ++ word :: ngram) = none := by
        rw [← Option.not_isSome_iff_eq_none, isSome_kept?]
        intro hsome
        have hshort := isSome_weights?_suffix h hc _ (List.cons_ne_nil word ngram) hsome
        rw [← isSome_kept?, hkept] at hshort
        simp at hshort
      rw [hmissing]
      rfl
    | some weights =>
      cases i with
      | zero =>
        rw [List.take_zero, List.reverse_nil, List.nil_append, hkept]
        rfl
      | succ i =>
        rw [List.length_cons] at hi
        dsimp only
        rw [List.getElem?_cons_succ, ih (List.cons_ne_nil word ngram) (by omega)]

/-- The walk in a closed file gets as far as there are n-grams. -/
theorem le_length_found_iff (h : a.WellFormed) (hc : a.Closed) (word : WordId)
    (context : List WordId) {m : Nat} (hm : m ≤ context.length) :
    m ≤ (a.found [word] context).length ↔
      m = 0 ∨ (a.weights? (ngramAfter context m word)).isSome = true := by
  cases m with
  | zero => simp
  | succ m =>
    rw [ngramAfter, ← isSome_kept?, ← getElem?_found h hc (List.cons_ne_nil word []) context hm,
      Option.isSome_map, isSome_getElem?]
    constructor
    · exact Or.inr
    · rintro (h0 | hlt)
      · omega
      · exact hlt

end BackoffLM.Arpa

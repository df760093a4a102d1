import BackoffLM.Index
import Mathlib.Data.List.Basic

/-!
# The n-grams of a file

`Arpa.weights?` is the plain reading of a file: the weights of a word by its number, and of a longer
n-gram those of the first entry with its words, wherever that entry stands. Search structures look
into one section only; when every section holds n-grams of its own order (`Arpa.Graded`) that comes
to the same (`weights?_eq_section`). `Arpa.found` is the walk that every search structure imitates:
it puts older words before an n-gram as long as the result is in the file. It starts from the word
that a number stands for (`Arpa.resolve`), as numbers outside the vocabulary are the unknown word.
-/

namespace BackoffLM.Arpa

/-- The entries of all sections, in the order of the file. -/
def entries (a : Arpa) : List Entry := a.ngrams.flatMap Array.toList

/-- The weights that a file gives to an n-gram in reading order: to one of order 2 or more those of
the first entry with its words. -/
def weights? (a : Arpa) (words : List WordId) : Option Weights :=
  match words with
  | [word] => a.unigrams[word]?
  | _ => (a.entries.find? fun e => e.words == words).map Entry.weights

/-- The weights as models keep them, without the backoff at the highest order. -/
def kept? (a : Arpa) (words : List WordId) : Option Weights :=
  (a.weights? words).map (Weights.keepBackoff (words.length < a.order))

/-- Every section holds n-grams of its own order. -/
def Graded (a : Arpa) : Prop :=
  ∀ (k : Nat) (s : Array Entry), a.ngrams[k]? = some s →
    ∀ e ∈ s.toList, e.words.length = k + 2

instance (a : Arpa) : Decidable a.Graded :=
  decidable_of_iff (∀ s ∈ a.ngrams.zipIdx, ∀ e ∈ s.1.toList, e.words.length = s.2 + 2)
    ⟨fun h k s hs => h (s, k) (List.mem_zipIdx_iff_getElem?.mpr hs),
      fun h s hs => h s.2 s.1 (List.mem_zipIdx_iff_getElem?.mp hs)⟩

/-- Puts older words, newest first, before an n-gram in reading order, as long as the results are in
the file: each older word with the weights of the n-gram that it leads to. -/
def found (a : Arpa) : (ngram : List WordId) → (older : List WordId) → List (WordId × Weights)
  | _, [] => []
  | ngram, word :: older =>
    match a.kept? (word :: ngram) with
    | none => []
    | some weights => (word, weights) :: found a (word :: ngram) older

/-- The number under which a word is looked up: its own, or that of the unknown word. -/
def resolve (a : Arpa) (word : WordId) : WordId :=
  if word < a.unigrams.size then word else unknownId

/-- A word of the vocabulary is looked up as itself. -/
theorem resolve_of_lt {a : Arpa} {word : Nat} (h : word < a.unigrams.size) :
    a.resolve word = word :=
  if_pos h

/-- Every word is looked up as one of the vocabulary. -/
theorem resolve_lt {a : Arpa} (hpos : 0 < a.unigrams.size) (word : Nat) :
    (a.resolve word : Nat) < a.unigrams.size := by
  unfold resolve
  split
  · assumption
  · exact hpos

/-- The node of a word is the number that it is looked up under. -/
theorem unigramAt_unigrams (a : Arpa) (word : Nat) :
    unigramAt a.unigrams word = (a.resolve word, a.unigrams.getD (a.resolve word) default) := by
  unfold unigramAt resolve
  by_cases h : word < a.unigrams.size
  · simp [h]
  · rw [Array.getElem?_eq_none (by omega), if_neg h]

/-- Among sections of orders from `n` on, the first entry with some words is that of the section of
their order. -/
theorem findSome?_section {sections : List (Array Entry)} {n : Nat} {words : List WordId}
    (hg : ∀ (k : Nat) (s : Array Entry), sections[k]? = some s →
      ∀ e ∈ s.toList, e.words.length = n + k)
    {k : Nat} (hk : words.length = n + k) :
    (sections.findSome? fun s => s.toList.find? fun e => e.words == words) =
      sections[k]?.bind fun s => s.toList.find? fun e => e.words == words := by
  induction sections generalizing n k with
  | nil => rfl
  | cons s sections ih =>
    have hrest : ∀ (j : Nat) (s : Array Entry), sections[j]? = some s →
        ∀ e ∈ s.toList, e.words.length = (n + 1) + j := by
      intro j s' hs e he
      have := hg (j + 1) s' hs e he
      omega
    cases k with
    | zero =>
      -- No later section holds words of this length.
      have hnone :
          (sections.findSome? fun s => s.toList.find? fun e => e.words == words) = none := by
        rw [List.findSome?_eq_none_iff]
        intro s' hs'
        rw [List.find?_eq_none]
        intro e he
        obtain ⟨j, hj, rfl⟩ := List.getElem_of_mem hs'
        have := hrest j _ (List.getElem?_eq_getElem hj) e he
        intro hw
        rw [beq_iff_eq] at hw
        rw [hw] at this
        omega
      rw [List.findSome?_cons, hnone, List.getElem?_cons_zero, Option.bind_some]
      cases s.toList.find? fun e => e.words == words with
      | none => rfl
      | some e => rfl
    | succ k =>
      -- The first section holds shorter ones only.
      have hnone : (s.toList.find? fun e => e.words == words) = none := by
        rw [List.find?_eq_none]
        intro e he hw
        have := hg 0 s rfl e he
        rw [beq_iff_eq] at hw
        rw [hw] at this
        omega
      rw [List.findSome?_cons, hnone, List.getElem?_cons_succ]
      exact ih hrest (by omega)

/-- The weights of an n-gram of two words or more are those of its first entry. -/
theorem weights?_eq_entry (a : Arpa) {words : List WordId} (h : 2 ≤ words.length) :
    a.weights? words = (a.entries.find? fun e => e.words == words).map Entry.weights := by
  match words, h with
  | _ :: _ :: _, _ => rfl

/-- In a graded file the weights of an n-gram are found in the section of its order. -/
theorem weights?_eq_section {a : Arpa} (hg : a.Graded) {words : List WordId} {k : Nat}
    (hk : words.length = k + 2) :
    a.weights? words =
      (a.ngrams[k]?.bind fun s => s.toList.find? fun e => e.words == words).map Entry.weights := by
  rw [weights?_eq_entry a (by omega), entries, List.find?_flatMap,
    findSome?_section (n := 2) (k := k) ?_ (by omega)]
  intro j s hs e he
  have := hg j s hs e he
  omega

end BackoffLM.Arpa

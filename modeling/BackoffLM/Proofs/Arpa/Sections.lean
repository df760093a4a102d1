import BackoffLM.Arpa.Reader
import BackoffLM.Proofs.Outcome
import Mathlib.Data.List.Basic

/-!
# What a line adds and what a file leaves

The reader is taken apart once. `readNgram_spec`, `Lexicon.add_cases` and `Ngrams.add_cases` say all
that one line can do, and `ofBytes_sections` says how the contents of a file come about: every
section is `Reached` from an empty one by lines that were accepted, and there are as many sections
as orders are kept. What holds of an empty section and is kept by each line so holds of the contents
(`Reached.invariant`).
-/

namespace BackoffLM.Arpa

open Text (Line)

/-! ## One line -/

/-- An n-gram line has as many words as the order, and no backoff weight where none is read. -/
theorem readNgram_spec {order : Nat} {withBackoff : Bool} {text : List Char} {words : List String}
    {weights : Weights} (h : readNgram order withBackoff text = .ok (words, weights)) :
    words.length = order ∧ (withBackoff = false → weights.backoff = .zero) := by
  unfold readNgram at h
  split at h
  · simp at h
  · rename_i probability others hfields
    dsimp only at h
    split at h
    · simp at h
    · -- With or without a backoff after them, the words are the first `order` of the other fields.
      rename_i hcount
      have hlen : ((others.take order).map String.ofList).length = order := by
        rw [List.length_map, List.length_take]
        omega
      split at h
      · simp at h
      · split at h
        · split at h
          · simp at h
          · obtain ⟨hwords, -⟩ := Prod.mk.inj (Except.ok.inj h)
            constructor
            · rw [← hwords]
              exact hlen
            · intro hnone
              exact absurd hnone (by decide)
        · obtain ⟨hwords, hweights⟩ := Prod.mk.inj (Except.ok.inj h)
          constructor
          · rw [← hwords]
            exact hlen
          · intro _
            rw [← hweights]

/-- A line of the unigram section sets the weights of the unknown word, or adds a new word with its
weights. -/
theorem Lexicon.add_cases {withBackoff : Bool} {l l' : Lexicon} {text : List Char}
    (h : Lexicon.add withBackoff l text = .ok l') :
    ∃ words weights, readNgram 1 withBackoff text = .ok (words, weights) ∧
      ((words.headD "" = unknownToken ∧
          l' = { l with unigrams := l.unigrams.setIfInBounds 0 weights, hasUnknown := true }) ∨
        (l.vocabulary.ids[words.headD ""]? = none ∧
          l' = ⟨l.vocabulary.push (words.headD ""), l.unigrams.push weights, l.hasUnknown⟩)) := by
  unfold Lexicon.add at h
  obtain ⟨⟨words, weights⟩, hread, h⟩ := bind_eq_ok.mp h
  dsimp only at h
  refine ⟨words, weights, hread, ?_⟩
  split at h
  · rename_i hunknown
    exact .inl ⟨hunknown, (Except.ok.inj h).symm⟩
  · obtain ⟨hnew, h⟩ := ite_error_eq_ok.mp h
    rw [Vocabulary.contains, Bool.not_eq_true] at hnew
    exact .inr ⟨Std.HashMap.getElem?_eq_none_of_contains_eq_false hnew,
      (Except.ok.inj h).symm⟩

/-- A line of the section of a higher order adds an n-gram whose words were not there. -/
theorem Ngrams.add_cases {v : Vocabulary} {order : Nat} {withBackoff : Bool}
    {ngrams ngrams' : Ngrams} {text : List Char}
    (h : Ngrams.add v order withBackoff ngrams text = .ok ngrams') :
    ∃ words weights ids, readNgram order withBackoff text = .ok (words, weights) ∧
      lookUp v words = .ok ids ∧ ngrams.seen.contains ids = false ∧
      ngrams' = ⟨ngrams.entries.push ⟨ids, weights⟩, ngrams.seen.insert ids⟩ := by
  unfold Ngrams.add at h
  obtain ⟨⟨words, weights⟩, hread, h⟩ := bind_eq_ok.mp h
  obtain ⟨ids, hids, h⟩ := bind_eq_ok.mp h
  obtain ⟨hnew, h⟩ := ite_error_eq_ok.mp h
  exact ⟨words, weights, ids, hread, hids, by simpa using hnew, (Except.ok.inj h).symm⟩

/-! ## Sections -/

section

variable {σ : Type} {add : σ → List Char → Except ArpaFault σ} {start result : σ}

/-- The results that lines lead to, one after another, when each is accepted. -/
inductive Reached (add : σ → List Char → Except ArpaFault σ) (start : σ) : σ → Prop
  | start : Reached add start start
  | line {result next : σ} {text : List Char} :
    Reached add start result → add result text = .ok next → Reached add start next

/-- What every line keeps holds of every result that is reached. -/
theorem Reached.invariant {P : σ → Prop} (h : Reached add start result) (h0 : P start)
    (hadd : ∀ r text r', P r → add r text = .ok r' → P r') : P result := by
  induction h with
  | start => exact h0
  | line _ hline ih => exact hadd _ _ _ ih hline

/-- The result of a section is reached. -/
theorem reached_of_readSection {last : Nat} {lines : List Line} {seen : Nat} {s : Section σ}
    (h0 : Reached add start result) (h : readSection add last result seen lines = .ok s) :
    Reached add start s.result := by
  induction lines generalizing result seen with
  | nil => simp [readSection] at h
  | cons line lines ih =>
    rw [readSection] at h
    obtain ⟨text, -, h⟩ := bind_eq_ok.mp h
    split at h
    · rw [← Except.ok.inj h]
      exact h0
    · obtain ⟨next, hnext, h⟩ := bind_eq_ok.mp h
      exact ih (h0.line (mapError_eq_ok.mp hnext)) h

end

/-- The sections from an order on: one for each order that is declared and kept, and a backoff is
read below the highest that is kept. -/
theorem readHigher_sections {v : Vocabulary} {keep last order : Nat} {declared : List Nat}
    {opening : Nat × List Char} {lines : List Line} {sections : List (Array Entry)}
    (h : readHigher v keep last order declared opening lines = .ok sections) :
    sections.length = min (keep + 1 - order) declared.length ∧
      ∀ (k : Nat) (entries : Array Entry), sections[k]? = some entries →
        ∃ seen, Reached (Ngrams.add v (order + k) (order + k < keep)) ⟨#[], ∅⟩
          ⟨entries, seen⟩ := by
  induction declared generalizing order opening lines sections with
  | nil =>
    rw [readHigher] at h
    split at h
    · rw [← Except.ok.inj h]
      exact ⟨by simp, fun k entries hk => by simp at hk⟩
    · simp at h
  | cons count declared ih =>
    rw [readHigher] at h
    obtain ⟨-, h⟩ := ite_error_eq_ok.mp h
    obtain ⟨-, h⟩ := ite_error_eq_ok.mp h
    split at h
    · -- This order is kept: its section comes first, and those of the higher orders follow.
      rename_i hkeep
      obtain ⟨first, hfirst, h⟩ := bind_eq_ok.mp h
      obtain ⟨-, -, h⟩ := bind_eq_ok.mp h
      obtain ⟨higher, hhigher, h⟩ := bind_eq_ok.mp h
      obtain ⟨hlen, hrest⟩ := ih hhigher
      rw [← Except.ok.inj h]
      refine ⟨by rw [List.length_cons, List.length_cons]; omega, fun k entries hk => ?_⟩
      cases k with
      | zero =>
        obtain rfl := Option.some.inj hk
        exact ⟨first.result.seen, reached_of_readSection .start hfirst⟩
      | succ k =>
        obtain ⟨seen, hseen⟩ := hrest k entries hk
        rw [Nat.add_right_comm order 1 k] at hseen
        exact ⟨seen, hseen⟩
    · -- Neither this order nor a higher one is kept.
      rename_i hkeep
      obtain ⟨skipped, -, h⟩ := bind_eq_ok.mp h
      obtain ⟨-, -, h⟩ := bind_eq_ok.mp h
      obtain ⟨hlen, -⟩ := ih h
      have hnone : sections = [] := List.eq_nil_of_length_eq_zero (by omega)
      rw [hnone]
      exact ⟨by rw [List.length_nil]; omega, fun k entries hk => by simp at hk⟩

/-! ## The whole file -/

/-- Some order is declared before the sections begin. -/
theorem readCounts_ne_nil {last : Nat} {declared counts : List Nat} {lines rest : List Line}
    (h : readCounts last declared lines = .ok (counts, rest)) : counts ≠ [] := by
  induction lines generalizing declared with
  | nil => simp [readCounts] at h
  | cons line lines ih =>
    rw [readCounts] at h
    obtain ⟨text, -, h⟩ := bind_eq_ok.mp h
    split at h
    · obtain ⟨⟨order, count⟩, -, h⟩ := bind_eq_ok.mp h
      dsimp only at h
      split at h
      · exact ih h
      · simp at h
    · split at h
      · split at h
        · simp at h
        · rename_i hdeclared
          obtain ⟨hcounts, -⟩ := Prod.mk.inj (Except.ok.inj h)
          rw [← hcounts]
          simpa using hdeclared
      · simp at h

/-- Of the orders that are declared at least one is kept. -/
theorem keptOrder_bounds {declared : Nat} (hpos : 0 < declared) (atMost : Option Nat) :
    1 ≤ keptOrder declared atMost ∧ keptOrder declared atMost ≤ declared := by
  cases atMost with
  | none => exact ⟨hpos, Nat.le_refl _⟩
  | some m =>
    show 1 ≤ min declared (max m 1) ∧ min declared (max m 1) ≤ declared
    omega

/-- How the contents of a file come about: a section of unigrams, and one for each higher order that
is kept, where a backoff is read below the highest. -/
theorem ofBytes_sections {bytes : List UInt8} {atMost : Option Nat} {a : Arpa}
    (h : ofBytes bytes atMost = .ok a) :
    a.ngrams.length + 1 ≤ maxOrder ∧
      Reached (Lexicon.add (0 < a.ngrams.length)) Lexicon.initial
        ⟨a.vocabulary, a.unigrams, a.hasUnknown⟩ ∧
      ∀ (k : Nat) (entries : Array Entry), a.ngrams[k]? = some entries →
        ∃ seen, Reached (Ngrams.add a.vocabulary (k + 2) (k + 1 < a.ngrams.length)) ⟨#[], ∅⟩
          ⟨entries, seen⟩ := by
  unfold ofBytes at h
  obtain ⟨afterData, -, h⟩ := bind_eq_ok.mp h
  obtain ⟨⟨declared, lines⟩, hcounts, h⟩ := bind_eq_ok.mp h
  dsimp only at h
  obtain ⟨hmax, h⟩ := ite_error_eq_ok.mp h
  obtain ⟨s, hs, h⟩ := bind_eq_ok.mp h
  obtain ⟨-, -, h⟩ := bind_eq_ok.mp h
  obtain ⟨sections, hsections, h⟩ := bind_eq_ok.mp h
  obtain ⟨hlen, hall⟩ := readHigher_sections hsections
  -- All orders that are kept were declared, so there is a section for each of them.
  have hdeclared : 0 < declared.length := List.length_pos_iff.mpr (readCounts_ne_nil hcounts)
  obtain ⟨hpos, hle⟩ := keptOrder_bounds hdeclared atMost
  have hkeep : keptOrder declared.length atMost = sections.length + 1 := by
    rw [hlen, List.length_tail]
    omega
  rw [hkeep] at hs hall hmax
  rw [← Except.ok.inj h]
  refine ⟨Nat.le_of_not_lt hmax, ?_, fun k entries hk => ?_⟩
  · have hreached := reached_of_readSection .start hs
    simpa using hreached
  · obtain ⟨seen, hseen⟩ := hall k entries hk
    have hbackoff : (k + 2 < sections.length + 1) = (k + 1 < sections.length) := by
      rw [eq_iff_iff]
      omega
    simp only [Nat.add_comm 2 k, hbackoff] at hseen
    exact ⟨seen, hseen⟩

end BackoffLM.Arpa

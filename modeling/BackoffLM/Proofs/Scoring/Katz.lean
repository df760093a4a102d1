import BackoffLM.Proofs.Scoring.Incremental
import Mathlib.Data.Nat.Find

/-!
# Tries score as Katz backoff says

`Arpa.katz` reads the score of a word after a context off the file: the longest n-gram of the word
and its newest context words that the file has counts, and the backoff weights of the longer
contexts that the file has are added, shorter contexts first. `trie_score_eq_katz` says that a trie
of a closed file scores so, with plain and with packed pointers. In a closed file the trie is
`LeftClosed`, so that the context that a state keeps is long enough (`length_extensions_eq`), and
the weights of the state are the backoffs of all contexts that there are (`getElem?_backoffs`).
-/

namespace BackoffLM

namespace Arpa

/-- The number of context words that a score can use. -/
def usable (a : Arpa) (context : List WordId) : Nat := min (a.order - 1) context.length

/-- The number of context words in the longest n-gram that the file has for a word. -/
def matched (a : Arpa) (context : List WordId) (word : WordId) : Nat :=
  Nat.findGreatest (fun m => (a.weights? (ngramAfter context m word)).isSome = true)
    (a.usable context)

/-- The backoff weight of the `j` newest words of a context. -/
def backoff? (a : Arpa) (context : List WordId) (j : Nat) : Option LogProb :=
  (a.weights? (context.take j).reverse).map Weights.backoff

/-- The backoff weights of the contexts longer than `m` words that the file has. -/
def missed (a : Arpa) (context : List WordId) (m : Nat) : List LogProb :=
  (List.range' (m + 1) (a.usable context - m)).filterMap (a.backoff? context)

/-- The score of a word after a context given newest word first. -/
def katz (a : Arpa) (context : List WordId) (word : WordId) : Option Score :=
  let m := a.matched context word
  (a.weights? (ngramAfter context m word)).map fun weights =>
    ⟨weights.prob + .sum (a.missed context m), m + 1⟩

/-- What is left of an n-gram has its log probability. -/
theorem map_prob_kept? (a : Arpa) (words : List WordId) :
    (a.kept? words).map Weights.prob = (a.weights? words).map Weights.prob := by
  rw [kept?, Option.map_map]
  congr 1
  funext w
  unfold Function.comp Weights.keepBackoff
  split <;> rfl

/-- Below the highest order an n-gram is kept whole. -/
theorem kept?_of_lt {a : Arpa} {words : List WordId} (h : words.length < a.order) :
    a.kept? words = a.weights? words := by
  rw [kept?, decide_eq_true h]
  exact Option.map_id'

end Arpa

/-- What a function gives from some place of a list on, until the list ends, is the rest of it. -/
theorem filterMap_range'_eq_drop {α : Type} {xs : List α} {f : Nat → Option α} {n : Nat}
    (hlen : xs.length ≤ n) {m : Nat} (hf : ∀ j, m ≤ j → j < n → f (j + 1) = xs[j]?) :
    (List.range' (m + 1) (n - m)).filterMap f = xs.drop m := by
  induction hk : n - m generalizing m with
  | zero => rw [List.drop_eq_nil_of_le (by omega)]; rfl
  | succ k ih =>
    have hrest := ih (m := m + 1) (fun j hj hn => hf j (by omega) hn) (by omega)
    rw [List.range'_succ, List.filterMap_cons, hf m (Nat.le_refl m) (by omega), hrest]
    by_cases hm : m < xs.length
    · rw [List.getElem?_eq_getElem hm, List.drop_eq_getElem_cons hm]
    · rw [List.getElem?_eq_none (by omega), List.drop_eq_nil_of_le (by omega),
        List.drop_eq_nil_of_le (by omega)]

namespace Trie

open NgramIndex

variable {P : Type} [PointerArray P] {a : Arpa}

/-- A trie has the order of its file. -/
theorem contextLimit_ofArpa (bits : Nat) :
    contextLimit (ofArpa bits a : Trie P FloatValues) = a.order - 1 :=
  congrArg (· - 1) (order_ofArpa bits a)

/-- A state keeps no more words than a score can use. -/
theorem length_contextState_ofArpa (bits : Nat) (context : List WordId) :
    (contextState (ofArpa bits a : Trie P FloatValues) context).length ≤ a.usable context := by
  have hlimit := length_contextState_le (ofArpa bits a : Trie P FloatValues) context
  rw [contextLimit_ofArpa] at hlimit
  exact Nat.le_min.mpr ⟨hlimit, length_contextState_le_length _ context⟩

/-- A word of the vocabulary has the weights of the file. -/
theorem weights_unigram_ofArpa (bits : Nat) {word : Nat} (h : word < a.unigrams.size) :
    (unigram (ofArpa bits a : Trie P FloatValues) word).2 = a.unigrams[word] := by
  show (unigramAt a.unigrams word).2 = _
  simp [unigramAt, h]

variable [LawfulPointers P]

/-- The backoff weights of a state are those of all contexts that there are. -/
theorem getElem?_backoffs (h : a.WellFormed) (hc : a.Closed) (bits : Nat) {context : List WordId}
    (hcontext : ∀ w ∈ context, (w : Nat) < a.unigrams.size) {j : Nat} (hj : j < a.usable context) :
    (contextState (ofArpa bits a : Trie P FloatValues) context).backoffs[j]? =
      a.backoff? context (j + 1) := by
  cases context with
  | nil => simp [Arpa.usable] at hj
  | cons newest older =>
    have hnewest : (newest : Nat) < a.unigrams.size := hcontext newest (by simp)
    have hpos : 0 < contextLimit (ofArpa bits a : Trie P FloatValues) := by
      rw [contextLimit_ofArpa]
      unfold Arpa.usable at hj
      omega
    rw [Arpa.usable, List.length_cons] at hj
    rw [State.backoffs, contextState_cons _ _ _ hpos,
      extensions_ofArpa h.graded h.unigrams_pos bits, contextLimit_ofArpa,
      Arpa.resolve_of_lt hnewest, weights_unigram_ofArpa bits hnewest, List.map_cons, List.map_map]
    cases j with
    | zero =>
      show _ = (a.unigrams[newest]?).map Weights.backoff
      rw [Array.getElem?_eq_getElem hnewest]
      rfl
    | succ i =>
      -- The walk over the context that a state can hold is shorter than the order, so that it meets
      -- no n-gram whose backoff was dropped.
      have hfound := Arpa.getElem?_found h hc (List.cons_ne_nil newest [])
        (older.take (a.order - 1 - 1)) (i := i) (by rw [List.length_take]; omega)
      rw [List.take_take, Nat.min_eq_left (by omega), ← List.reverse_cons,
        ← List.take_succ_cons, Arpa.kept?_of_lt (by simp; omega)] at hfound
      rw [List.getElem?_cons_succ, List.getElem?_map, Arpa.backoff?, ← hfound, Option.map_map]
      rfl

/-- The walk from a word over the context that a state keeps finds the longest n-gram. -/
theorem length_extensions_eq (h : a.WellFormed) (hc : a.Closed) (bits : Nat)
    {context : List WordId} (hcontext : ∀ w ∈ context, (w : Nat) < a.unigrams.size) {word : Nat}
    (hword : word < a.unigrams.size) :
    min (contextState (ofArpa bits a : Trie P FloatValues) context).length
        (a.found [word] context).length = a.matched context word := by
  have hreach := min_length_le_contextState (Nat.le_refl _)
    ((leftClosed_ofArpa (P := P) h hc bits a.unigrams.size).closedTo _) hword hcontext
  rw [extensions_ofArpa h.graded h.unigrams_pos bits, contextLimit_ofArpa,
    Arpa.resolve_of_lt hword] at hreach
  have hkept := length_contextState_ofArpa (P := P) (a := a) bits context
  have hlength := Arpa.length_found_le a [word] context
  -- The length is possible, the n-gram of it is there, and no longer one that a score can use is.
  symm
  rw [Arpa.matched, Nat.findGreatest_eq_iff]
  refine ⟨?_, fun hm => ?_, fun n hn hle hsome => ?_⟩
  · omega
  · have hfound := (Arpa.le_length_found_iff h hc word context
      (m := min (contextState (ofArpa bits a : Trie P FloatValues) context).length
        (a.found [word] context).length) (by omega)).mp (Nat.min_le_right _ _)
    exact hfound.resolve_left hm
  · rw [Arpa.usable] at hle
    have hlong := (Arpa.le_length_found_iff h hc word context (by omega)).mpr (Or.inr hsome)
    omega

/-- The last n-gram of a walk over part of a context gives its log probability, and the word alone
when the walk finds nothing. -/
theorem map_prob_weights? (h : a.WellFormed) (hc : a.Closed) (context : List WordId) {word : Nat}
    (hword : word < a.unigrams.size) (kept : Nat) :
    (a.weights? (Arpa.ngramAfter context (min kept (a.found [word] context).length) word)).map
        Weights.prob =
      some (((((a.found [word] context).take kept).getLast?).map fun f => f.2.prob).getD
        a.unigrams[word].prob) := by
  rw [List.getLast?_eq_getElem?, List.length_take]
  cases hm : min kept (a.found [word] context).length with
  | zero =>
    have hnil : (a.found [word] context).take kept = [] := by
      rw [← List.length_eq_zero_iff, List.length_take, hm]
    rw [hnil]
    show (a.unigrams[word]?).map Weights.prob = _
    rw [Array.getElem?_eq_getElem hword]
    rfl
  | succ i =>
    have hi : i < (a.found [word] context).length := by omega
    have hle := Arpa.length_found_le a [word] context
    have hfound := Arpa.getElem?_found h hc (List.cons_ne_nil word []) context (i := i)
      (by omega)
    rw [Arpa.ngramAfter, ← Arpa.map_prob_kept?, ← hfound, Nat.add_sub_cancel,
      List.getElem?_take_of_lt (by omega), List.getElem?_eq_getElem hi]
    rfl

/-- A trie of a closed file scores a word as Katz backoff says. -/
theorem scoreAfter_ofArpa (h : a.WellFormed) (hc : a.Closed) (bits : Nat) {context : List WordId}
    (hcontext : ∀ w ∈ context, (w : Nat) < a.unigrams.size) {word : Nat}
    (hword : word < a.unigrams.size) :
    a.katz context word =
      some (scoreAfter (ofArpa bits a : Trie P FloatValues) context word).1 := by
  have hscore : (scoreAfter (ofArpa bits a : Trie P FloatValues) context word).1 =
      let state := contextState (ofArpa bits a : Trie P FloatValues) context
      let found := extensions (ofArpa bits a : Trie P FloatValues) 1
        (unigram (ofArpa bits a : Trie P FloatValues) word).1 state.words
      ⟨(found.getLast?.map fun f => f.2.prob).getD
          (unigram (ofArpa bits a : Trie P FloatValues) word).2.prob +
        .sum (state.backoffs.drop found.length), found.length + 1⟩ := rfl
  have hmatched := length_extensions_eq (P := P) h hc bits hcontext hword
  dsimp only at hscore
  rw [words_contextState, extensions_take, extensions_ofArpa h.graded h.unigrams_pos bits,
    Arpa.resolve_of_lt hword, weights_unigram_ofArpa bits hword, List.length_take,
    hmatched] at hscore
  have hprob := map_prob_weights? h hc context hword
    (contextState (ofArpa bits a : Trie P FloatValues) context).length
  rw [hmatched] at hprob
  -- The backoffs that are added are those of the state from the length that was found on.
  have hmissed : a.missed context (a.matched context word) =
      (contextState (ofArpa bits a : Trie P FloatValues) context).backoffs.drop
        (a.matched context word) :=
    filterMap_range'_eq_drop (by
      rw [State.backoffs, List.length_map]
      exact length_contextState_ofArpa bits context) fun j _ hj =>
      (getElem?_backoffs h hc bits hcontext hj).symm
  rw [Arpa.katz, hmissed, hscore]
  obtain ⟨weights, hweights, hw⟩ := Option.map_eq_some_iff.mp hprob
  rw [hweights, Option.map_some, hw]

end Trie

namespace Model

/-- A trie that is built from a closed file scores every word after every context as Katz backoff
says, with plain and with packed pointers. -/
theorem trie_score_eq_katz {bytes : List UInt8} {atMost : Option Nat} {a : Arpa}
    (h : Arpa.ofBytes bytes atMost = .ok a) (hc : a.Closed) (bits : Nat) (context : List WordId)
    (hcontext : ∀ w ∈ context, w < a.vocabulary.size) (word : WordId)
    (hword : word < a.vocabulary.size) :
    a.katz context word =
        some ((ofArpa bits a : Model SortedTrie).toLanguageModel.scoreAfter context word).1 ∧
      a.katz context word =
        some ((ofArpa bits a : Model ArrayTrie).toLanguageModel.scoreAfter context word).1 := by
  have hwf := Arpa.ofBytes_wellFormed h
  rw [← hwf.size_unigrams] at hword hcontext
  exact ⟨Trie.scoreAfter_ofArpa hwf hc bits hcontext hword,
    Trie.scoreAfter_ofArpa hwf hc bits hcontext hword⟩

/-- After `<s> a b a` the word `b` is found after `a` alone, and the backoffs of `b a` and of
`a b a` are added. -/
theorem trie_score_eq_katz_sample :
    Arpa.ofBytes Arpa.sample none = .ok Arpa.sampleArpa ∧ Arpa.sampleArpa.Closed ∧
      Arpa.sampleArpa.katz [2, 3, 2, 1] 3 = some ⟨⟨0xC0700000⟩, 2⟩ ∧
      some ((ofArpa 8 Arpa.sampleArpa : Model ArrayTrie).toLanguageModel.scoreAfter
        [2, 3, 2, 1] 3).1 = some (⟨⟨0xC0700000⟩, 2⟩ : Score) := by
  have hclosed : Arpa.sampleArpa.Closed := by decide
  have hsize : Arpa.sampleArpa.vocabulary.size = 4 := rfl
  have hkatz : Arpa.sampleArpa.katz [2, 3, 2, 1] 3 = some ⟨⟨0xC0700000⟩, 2⟩ := by decide +kernel
  refine ⟨Arpa.ofBytes_sample, hclosed, hkatz, ?_⟩
  rw [← hkatz, (trie_score_eq_katz Arpa.ofBytes_sample hclosed 8 [2, 3, 2, 1]
    (by rw [hsize]; decide) 3 (by rw [hsize]; decide)).2]

end Model

end BackoffLM

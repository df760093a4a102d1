import BackoffLM.Proofs.Trie.Compression

/-!
# A trie finds exactly the entries of its file

A chain of lookups goes from a word to longer and longer n-grams that end in it. In the trie of any
contents, in whatever order the entries stand and whichever of them are repeated, have no parent or
hold numbers of no word, a chain is found exactly when every n-gram on its way is an entry, and it
gives the weights of the first entry for its last one (`FindsExactly`). A step of the search answers
as the file does (`extend_spec`), and the chain follows by induction on the words that are put
before (`isSome_follow_iff`, `kept?_of_follow`).
-/

namespace BackoffLM.Trie

open NgramIndex
open Arpa (ngramAfter)

section Chains

variable {P : Type} [PointerArray P] [LawfulPointers P] {a : Arpa} {level : Nat}
  {ngram : List WordId}

/-- From a node a chain is found when the file has all the n-grams on its way. -/
theorem isSome_follow_iff (hg : a.Graded) (bits : Nat) {here : Node × Weights}
    (hs : Stands a level here.1 ngram) (older : List WordId) :
    (follow (ofArpa bits a : Trie P FloatValues) level here older).isSome = true ↔
      ∀ i < older.length, (a.kept? ((older.take (i + 1)).reverse ++ ngram)).isSome = true := by
  induction older generalizing level here ngram with
  | nil => exact iff_of_true rfl fun i hi => absurd hi (Nat.not_lt_zero i)
  | cons word older ih =>
    obtain ⟨hsame, hnext⟩ := extend_spec (P := P) hg bits hs word
    have hrest : ∀ i, ((word :: older).take (i + 1)).reverse ++ ngram =
        (older.take i).reverse ++ word :: ngram := by
      intro i
      rw [List.take_succ_cons, List.reverse_cons, List.append_assoc, List.singleton_append]
    simp only [hrest]
    rw [List.length_cons, Nat.forall_lt_succ_left, List.take_zero, List.reverse_nil,
      List.nil_append, ← hsame, Option.isSome_map, Option.isSome_iff_exists,
      Option.isSome_iff_exists]
    simp only [follow_cons_eq_some_iff]
    constructor
    · rintro ⟨found, next, hextend, hfollow⟩
      exact ⟨⟨next, hextend⟩, (ih (hnext next hextend)).mp (by rw [hfollow, Option.isSome_some])⟩
    · rintro ⟨⟨next, hextend⟩, hkept⟩
      obtain ⟨found, hfollow⟩ :=
        Option.isSome_iff_exists.mp ((ih (hnext next hextend)).mpr hkept)
      exact ⟨found, next, hextend, hfollow⟩

/-- A chain of at least one step gives the weights that the file has for its last n-gram. -/
theorem kept?_of_follow (hg : a.Graded) (bits : Nat) {here found : Node × Weights}
    (hs : Stands a level here.1 ngram) (newest : WordId) (older : List WordId)
    (h : follow (ofArpa bits a : Trie P FloatValues) level here (newest :: older) = some found) :
    a.kept? ((newest :: older).reverse ++ ngram) = some found.2 := by
  induction older generalizing level here ngram newest with
  | nil =>
    obtain ⟨next, hextend, hfollow⟩ := (follow_cons_eq_some_iff _).mp h
    obtain ⟨hsame, -⟩ := extend_spec (P := P) hg bits hs newest
    obtain rfl := Option.some.inj hfollow
    rw [List.reverse_singleton, List.singleton_append, ← hsame]
    exact congrArg (Option.map Prod.snd) hextend
  | cons word older ih =>
    obtain ⟨next, hextend, hfollow⟩ := (follow_cons_eq_some_iff _).mp h
    obtain ⟨-, hnext⟩ := extend_spec (P := P) hg bits hs newest
    rw [List.reverse_cons, List.append_assoc, List.singleton_append]
    exact ih (hnext next hextend) word hfollow

end Chains

/-- An index finds the n-grams of a file exactly, starting from the words of its vocabulary. -/
structure FindsExactly {S : Type} [NgramIndex S] (index : S) (a : Arpa) : Prop where
  /-- A chain is found when every n-gram on its way, from two words on, is an entry. -/
  isSome_iff : ∀ {word : Nat}, word < a.unigrams.size → ∀ older,
    ((chain? index word older).isSome = true ↔
      ∀ i < older.length, ∃ e ∈ a.entries, e.words = ngramAfter older (i + 1) word)
  /-- A word alone has its own weights. -/
  alone : ∀ {word : Nat}, word < a.unigrams.size → ∀ {found : Node × Weights},
    chain? index word [] = some found → a.unigrams[word]? = some found.2
  /-- A longer n-gram has those of its first entry, but no backoff at the highest order. -/
  first : ∀ {word : Nat}, word < a.unigrams.size → ∀ {older}, older ≠ [] →
    ∀ {found : Node × Weights}, chain? index word older = some found →
      ∃ e, a.entries.find? (fun e => e.words == older.reverse ++ [word]) = some e ∧
        found.2.prob = e.weights.prob ∧
        found.2.backoff = if older.length + 1 < a.order then e.weights.backoff else .zero

/-- Whatever its pointers are, the trie of a file finds the n-grams of the file exactly. -/
theorem findsExactly_ofArpa {P : Type} [PointerArray P] [LawfulPointers P] (bits : Nat) {a : Arpa}
    (hg : a.Graded) : FindsExactly (ofArpa bits a : Trie P FloatValues) a := by
  have hunigram : ∀ {word : Nat}, word < a.unigrams.size →
      unigram (ofArpa bits a : Trie P FloatValues) word =
        (word, a.unigrams.getD word default) := by
    intro word hword
    have hnode := a.unigramAt_unigrams word
    rwa [Arpa.resolve_of_lt hword] at hnode
  have hstands : ∀ {word : Nat}, word < a.unigrams.size →
      Stands a 1 (unigram (ofArpa bits a : Trie P FloatValues) word).1 [word] := by
    intro word hword
    rw [hunigram hword]
    exact stands_word hword
  refine ⟨fun {word} hword older => ?_, fun {word} hword {found} h => ?_,
    fun {word} hword {older} hne {found} h => ?_⟩
  · rw [chain?, isSome_follow_iff hg bits (hstands hword)]
    refine forall₂_congr fun i hi => ?_
    rw [Arpa.isSome_kept?]
    refine Arpa.isSome_weights?_iff ?_
    rw [List.length_append, List.length_reverse, List.length_take, List.length_singleton]
    omega
  · obtain rfl := Option.some.inj h
    rw [hunigram hword, Array.getElem?_eq_getElem hword]
    simp [Array.getD_eq_getD_getElem?, hword]
  · obtain ⟨newest, rest, rfl⟩ := List.exists_cons_of_ne_nil hne
    have hkept := kept?_of_follow hg bits (hstands hword) newest rest h
    have hlength : ((newest :: rest).reverse ++ [word]).length = (newest :: rest).length + 1 := by
      rw [List.length_append, List.length_reverse, List.length_singleton]
    rw [Arpa.kept?, Arpa.weights?_eq_entry a (by rw [hlength]; simp), Option.map_map,
      Option.map_eq_some_iff, hlength] at hkept
    obtain ⟨e, he, hweights⟩ := hkept
    refine ⟨e, he, ?_, ?_⟩
    · rw [← hweights, Function.comp_apply, Weights.prob_keepBackoff]
    · rw [← hweights, Function.comp_apply, Weights.backoff_keepBackoff]
      simp only [decide_eq_true_eq]

/-- Both tries with plain weights find exactly the n-grams of what they are built from: a chain that
starts at a word of the vocabulary is found when every n-gram on its way is an entry, whatever else
the sections hold, and gives the weights of the first entry with its words. -/
theorem chains_exact (bits : Nat) {a : Arpa} (hg : a.Graded) :
    FindsExactly (ofArpa bits a : SortedTrie) a ∧ FindsExactly (ofArpa bits a : ArrayTrie) a :=
  ⟨findsExactly_ofArpa bits hg, findsExactly_ofArpa bits hg⟩

/-- Of an n-gram that is given twice the first weights are found, and an n-gram without a parent is
not found. -/
theorem chains_exact_rough :
    let plain : SortedTrie := ofArpa 8 Model.roughArpa
    let packed : ArrayTrie := ofArpa 8 Model.roughArpa
    Model.roughArpa.Graded ∧
      (∀ found, chain? plain 1 [2] = some found → found.2 = ⟨⟨0xBF000000⟩, ⟨0xBE000000⟩⟩) ∧
      (chain? plain 1 [9, 1]).isSome = true ∧ (chain? packed 2 [2, 2]).isSome = false := by
  intro plain packed
  have hg : Model.roughArpa.Graded := by decide
  obtain ⟨hplain, hpacked⟩ := chains_exact 8 hg
  refine ⟨hg, fun found hfound => ?_, (hplain.isSome_iff (by decide) _).mpr (by decide), ?_⟩
  · obtain ⟨e, he, hprob, hbackoff⟩ := hplain.first (by decide) (by decide) hfound
    rw [show e = ⟨[2, 1], ⟨0xBF000000⟩, ⟨0xBE000000⟩⟩ from
      (Option.some.inj (he.symm.trans (by decide)))] at hprob hbackoff
    exact congrArg₂ Weights.mk hprob hbackoff
  · rw [← Bool.not_eq_true, hpacked.isSome_iff (by decide)]
    decide

end BackoffLM.Trie

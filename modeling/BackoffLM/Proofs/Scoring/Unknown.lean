import BackoffLM.Proofs.Loaded
import BackoffLM.Proofs.Scoring.Agreement
import BackoffLM.Proofs.Scoring.Renaming
import Mathlib.Data.List.Induction

/-!
# Numbers outside the vocabulary

A number outside the vocabulary counts as the unknown word when it is scored
(`unigram_resolve`). In a context it is looked up as itself, and no n-gram has it there, while an
n-gram may have the unknown word there. So such numbers may be replaced by the unknown word
throughout a run when no n-gram has the unknown word before its last one
(`Arpa.NoUnknownContext`): then neither is found, and the trie `Renames` one to the other. A closed
file with an n-gram of the unknown word and others after it has one of two words, which is found
after the unknown word and not after a number outside the vocabulary.
-/

namespace BackoffLM

open NgramIndex

/-- The word that a number stands for: outside the vocabulary the unknown word. -/
def Vocabulary.resolve (v : Vocabulary) (word : WordId) : WordId :=
  if word < v.size then word else unknownId

namespace Arpa

/-- No n-gram has the unknown word before its last word. -/
def NoUnknownContext (a : Arpa) : Prop := ∀ e ∈ a.entries, unknownId ∉ e.words.dropLast

instance (a : Arpa) : Decidable a.NoUnknownContext :=
  inferInstanceAs (Decidable (∀ e ∈ a.entries, unknownId ∉ e.words.dropLast))

variable {a : Arpa} (h : a.WellFormed)
include h

theorem WellFormed.resolve_eq : a.vocabulary.resolve = a.resolve := by
  funext word
  rw [Vocabulary.resolve, resolve, h.size_unigrams]

/-- The word that a number stands for stands for itself. -/
theorem WellFormed.resolve_resolve (word : WordId) : a.resolve (a.resolve word) = a.resolve word :=
  resolve_of_lt (resolve_lt h.unigrams_pos word)

/-- A number is looked up as the word that it stands for. -/
theorem WellFormed.unigramAt_resolve (word : WordId) :
    unigramAt a.unigrams (a.resolve word) = unigramAt a.unigrams word := by
  rw [a.unigramAt_unigrams, a.unigramAt_unigrams, h.resolve_resolve]

/-- No n-gram has a number outside the vocabulary before its last word. -/
theorem WellFormed.not_mem_dropLast {word : WordId} (hword : ¬ word < a.unigrams.size) :
    ∀ e ∈ a.entries, word ∉ e.words.dropLast :=
  fun e he hmem => hword (h.lt_of_mem he (List.dropLast_subset e.words hmem))

/-- With an n-gram a closed file has all that it begins with. -/
theorem isSome_weights?_prefix (hc : a.Closed) {ngram : List WordId} (hne : ngram ≠ [])
    (newer : List WordId) (hsome : (a.weights? (ngram ++ newer)).isSome = true) :
    (a.weights? ngram).isSome = true := by
  induction newer using List.reverseRecOn with
  | nil => rwa [List.append_nil] at hsome
  | append_singleton newer word ih =>
    have hpos := List.length_pos_iff.mpr hne
    rw [← List.append_assoc] at hsome
    have hfront := isSome_weights?_dropLast h hc (by simp; omega) hsome
    rw [List.dropLast_concat] at hfront
    exact ih hfront

/-- A closed file in which the unknown word stands before another has an n-gram of the two. -/
theorem exists_weights?_unknown (hc : a.Closed) (hcontext : ¬ a.NoUnknownContext) :
    ∃ next, (a.weights? [unknownId, next]).isSome = true := by
  have hentry : ∃ e ∈ a.entries, unknownId ∈ e.words.dropLast := by
    by_contra hnone
    exact hcontext fun e he hmem => hnone ⟨e, he, hmem⟩
  obtain ⟨e, he, hmem⟩ := hentry
  have hne : e.words ≠ [] := by
    intro hnil
    rw [hnil] at hmem
    exact List.not_mem_nil hmem
  obtain ⟨older, newer, hfront⟩ := List.append_of_mem hmem
  obtain ⟨next, rest, hrest⟩ := List.exists_cons_of_ne_nil
    (List.concat_ne_nil (e.words.getLast hne) newer)
  have hwords : e.words = older ++ unknownId :: next :: rest := by
    rw [← List.dropLast_append_getLast hne, hfront, List.append_assoc, List.cons_append, hrest]
  have hsome : (a.weights? (older ++ unknownId :: next :: rest)).isSome = true :=
    (isSome_weights?_iff (by simp; omega)).mpr ⟨e, he, hwords⟩
  exact ⟨next, isSome_weights?_prefix h hc (List.cons_ne_nil _ _) rest
    (isSome_weights?_suffix h hc older (List.cons_ne_nil _ _) hsome)⟩

end Arpa

namespace Trie

variable {P V : Type} [PointerArray P] [LawfulPointers P] [WeightStore V] {a : Arpa}

open Keyed (hasKey)

variable {k : Nat} {above : List Key} {kept : List Keyed}

/-- The keys of a level are those of n-grams of the file. -/
theorem LevelOf.exists_entry (h : LevelOf a k above kept) {e : Keyed} (he : e ∈ kept) :
    ∃ entry ∈ a.entries, e.key = entry.words.reverse := by
  obtain ⟨s, hs, rfl⟩ := h.exists_section
  obtain ⟨entry, hentry, hkey⟩ := exists_entry_of_mem_sortLevel he
  exact ⟨entry, List.mem_flatMap.mpr ⟨s, List.mem_of_getElem? hs, hentry⟩, hkey⟩

/-- No key of a level goes on with a word that no n-gram has before its last word. -/
theorem LevelOf.findIdx?_eq_none (h : LevelOf a k above kept) {key : Key} (hne : key ≠ [])
    {word : WordId} (habsent : ∀ e ∈ a.entries, word ∉ e.words.dropLast) :
    kept.findIdx? (hasKey (key ++ [word])) = none := by
  rw [List.findIdx?_eq_none_iff]
  intro e he
  obtain ⟨entry, hentry, hkey⟩ := h.exists_entry he
  rw [hasKey, beq_eq_false_iff_ne, hkey]
  intro heq
  -- The n-gram would begin with the word.
  have hwords : entry.words = word :: key.reverse := by
    rw [← List.reverse_reverse entry.words, heq, List.reverse_append, List.reverse_singleton,
      List.singleton_append]
  refine habsent entry hentry ?_
  rw [hwords, List.dropLast_cons_of_ne_nil (fun hnil => hne (List.reverse_eq_nil_iff.mp hnil))]
  exact List.mem_cons_self

/-- A number that is no place of a level is not the node of an n-gram. -/
theorem extend_of_getElem?_none (h : LevelOf a k above kept) (bits : Nat) {node : Node}
    (hnode : above[node]? = none) (word : WordId) :
    (ofArpa bits a : Trie P V).extend (k + 1) node word = none := by
  have hchildren : (ofArpa bits a : Trie P V).children? (k + 1) node = none := by
    have hend : ¬ node + 1 < (childOffsets above (kept.map Keyed.key) 0).length := by
      rw [length_childOffsets]
      exact Nat.not_lt.mpr (Nat.succ_le_succ (List.getElem?_eq_none_iff.mp hnode))
    unfold children?
    rw [h.pointers_eq bits]
    dsimp only
    rw [LawfulPointers.size_ofOffsets, if_neg hend]
  unfold extend
  rw [hchildren]

/-- In a context a word is not found that no n-gram has before its last word. -/
theorem extend_eq_none (h : a.WellFormed) (bits : Nat) {word : WordId}
    (habsent : ∀ e ∈ a.entries, word ∉ e.words.dropLast) (level : Nat) (node : Node) :
    (ofArpa bits a : Trie P V).extend level node word = none := by
  cases level with
  | zero => rfl
  | succ k =>
    by_cases hk : k < a.ngrams.length
    · obtain ⟨above, kept, hlevel⟩ := exists_levelOf_of_lt hk
      cases hnode : above[node]? with
      | none => exact extend_of_getElem?_none hlevel bits hnode word
      | some key =>
        have hlength := (above_spec h.graded hlevel.above_eq).2 key (List.mem_of_getElem? hnode)
        have hmissing := hlevel.findIdx?_eq_none (List.ne_nil_of_length_eq_add_one hlength) habsent
        rw [extend_ofArpa hlevel h.graded bits hnode, hmissing, Option.map_none]
    · exact extend_of_length_le bits (by omega) node word

/-- A node is extended where the file has the longer n-gram. -/
theorem isSome_extend (hg : a.Graded) (bits : Nat) {level : Nat} {node : Node}
    {ngram : List WordId} (hs : Stands a level node ngram) (word : WordId) :
    ((ofArpa bits a : Trie P V).extend level node word).isSome =
      (a.weights? (word :: ngram)).isSome := by
  have hplain := (extend_spec (P := P) hg bits hs word).1
  rw [← Arpa.isSome_kept?, ← hplain, Option.isSome_map]
  have hlength := hs.length_eq hg
  obtain ⟨above, hlevel, habove, hnode⟩ := hs
  obtain ⟨k, rfl⟩ : ∃ k, level = k + 1 := ⟨level - 1, by omega⟩
  rw [Nat.add_sub_cancel] at habove
  by_cases hk : k < a.ngrams.length
  · obtain ⟨kept, h⟩ := exists_levelOf habove hk
    -- The place in the level does not depend on how weights are stored.
    rw [extend_ofArpa h hg bits hnode, extend_ofArpa h hg bits hnode, Option.isSome_map,
      Option.isSome_map]
  · rw [extend_of_length_le bits (by omega), extend_of_length_le bits (by omega)]

/-- Where the unknown word is in no context, numbers outside the vocabulary may be renamed to it. -/
theorem renames_resolve (h : a.WellFormed) (hcontext : a.NoUnknownContext) (bits : Nat) :
    Renames (ofArpa bits a : Trie P V) a.resolve where
  unigram_eq := h.unigramAt_resolve
  extend_eq level node word := by
    show (ofArpa bits a : Trie P V).extend level node (a.resolve word) =
      (ofArpa bits a : Trie P V).extend level node word
    by_cases hword : word < a.unigrams.size
    · rw [Arpa.resolve_of_lt hword]
    · have hunknown : a.resolve word = unknownId := if_neg hword
      rw [hunknown, extend_eq_none h bits hcontext,
        extend_eq_none h bits (h.not_mem_dropLast hword)]

end Trie

namespace NgramIndex

variable {S : Type} [NgramIndex S] (index : S)

/-- Words that are looked up alike have the same score in a state. -/
theorem score_fst_congr {word other : WordId} (h : unigram index word = unigram index other)
    (state : State) : (score index state word).1 = (score index state other).1 := by
  unfold score
  dsimp only
  rw [h]

/-- After one word of context a word is found with it or alone. -/
theorem length_scoreAfter_singleton (hlimit : 0 < contextLimit index) (newest word : WordId) :
    (scoreAfter index [newest] word).1.length =
      if (extend index 1 (unigram index word).1 newest).isSome then 2 else 1 := by
  have hwords : (contextState index [newest]).words = [newest] := by
    rw [State.words, contextState_cons index newest [] hlimit, List.take_nil]
    rfl
  show (extensions index 1 (unigram index word).1
    (contextState index [newest]).words).length + 1 = _
  rw [hwords]
  cases hextend : extend index 1 (unigram index word).1 newest with
  | none =>
    rw [extensions_of_none index hextend]
    rfl
  | some next =>
    rw [extensions_of_some index hextend]
    rfl

end NgramIndex

/-- The calls with the unknown word for every number outside the vocabulary. -/
def LanguageModel.resolved (lm : LanguageModel) (requests : List LanguageModel.Request) :
    List LanguageModel.Request :=
  requests.map (.rename lm.vocabulary.resolve)

/-- The hash tables of a file tell its n-grams and those that some calls look up from each other. -/
def Probing.TellApart (bits : Nat) (a : Arpa) (requests : List LanguageModel.Request) : Prop :=
  Apart (a.entries.map Entry.words ++ askedDuring (Model.ofArpa bits a) [] requests)
  deriving Decidable

namespace Model

variable {a : Arpa} (h : a.WellFormed) (bits : Nat)
include h

/-- Every kind of index looks a number up as the word that it stands for. -/
theorem unigram_resolve (kind : Kind) (word : WordId) :
    unigram (ofArpa bits a : Model kind.Index).index (a.resolve word) =
      unigram (ofArpa bits a : Model kind.Index).index word := by
  cases kind with
  | probing => exact h.unigramAt_resolve word
  | trie => exact h.unigramAt_resolve word
  | arrayTrie => exact h.unigramAt_resolve word
  | quantTrie => exact h.unigramAt_resolve word
  | quantArrayTrie => exact h.unigramAt_resolve word

/-- The word of the beginning stands for itself. -/
theorem resolve_beginId : a.vocabulary.resolve a.vocabulary.beginId = a.vocabulary.beginId := by
  refine if_pos (h.numbered.byLastPlace.idOf_lt ?_ beginToken)
  rw [← h.size_unigrams]
  exact h.unigrams_pos

section Tries

variable {P V : Type} [PointerArray P] [LawfulPointers P] [WeightStore V]

/-- Where the unknown word is in no context, a trie answers the resolved calls alike. -/
theorem trie_run_resolved (hcontext : a.NoUnknownContext) (requests : List LanguageModel.Request) :
    let lm := (ofArpa bits a : Model (Trie P V)).toLanguageModel
    lm.run [] (lm.resolved requests) =
      (lm.run [] requests).map (renameAnswer a.vocabulary.resolve) := by
  have hrenames : Renames (Trie.ofArpa bits a : Trie P V) a.vocabulary.resolve := by
    rw [h.resolve_eq]
    exact Trie.renames_resolve h hcontext bits
  exact Renames.run_map (m := (ofArpa bits a : Model (Trie P V))) hrenames (resolve_beginId h) []
    requests

/-- An n-gram of the unknown word and another is found by a trie after the unknown word, and not
after a number outside the vocabulary. -/
theorem trie_run_unknown {next : WordId} (hsome : (a.weights? [unknownId, next]).isSome = true) :
    let lm := (ofArpa bits a : Model (Trie P V)).toLanguageModel
    let requests : List LanguageModel.Request := [.inContext [a.vocabulary.size] next]
    (lm.run [] requests).map (fun x => x.1.length) = [1] ∧
      (lm.run [] (lm.resolved requests)).map (fun x => x.1.length) = [2] := by
  intro lm requests
  let index : Trie P V := Trie.ofArpa bits a
  have htwo : 2 ≤ [unknownId, next].length := Nat.le_refl 2
  obtain ⟨e, he, hwords⟩ := (Arpa.isSome_weights?_iff htwo).mp hsome
  have hnext : next < a.unigrams.size := h.lt_of_mem he (by rw [hwords]; simp)
  have hlimit : 0 < contextLimit index := by
    obtain ⟨s, hs, -⟩ := List.mem_flatMap.mp he
    have hpos := List.length_pos_of_mem hs
    have horder : order index = a.order := Trie.order_ofArpa bits a
    rw [contextLimit, horder, h.order_eq]
    omega
  have hnode : (unigram index next).1 = next := by
    have hnode := congrArg Prod.fst (a.unigramAt_unigrams next)
    rwa [Arpa.resolve_of_lt hnext] at hnode
  have hlength : ∀ newest, (scoreAfter index [newest] next).1.length =
      if (index.extend 1 next newest).isSome then 2 else 1 := by
    intro newest
    rw [length_scoreAfter_singleton index hlimit, hnode]
    rfl
  constructor
  · have hsize : ¬ a.vocabulary.size < a.unigrams.size := by
      rw [h.size_unigrams]
      exact Nat.lt_irrefl _
    show [(scoreAfter index [a.vocabulary.size] next).1.length] = [1]
    rw [hlength, Trie.extend_eq_none h bits (h.not_mem_dropLast hsize)]
    rfl
  · have hresolved : lm.resolved requests = [.inContext [unknownId] next] := by
      have hunknown : a.vocabulary.resolve a.vocabulary.size = unknownId :=
        if_neg (Nat.lt_irrefl _)
      have hsame : a.vocabulary.resolve next = next := if_pos (h.size_unigrams ▸ hnext)
      show [LanguageModel.Request.inContext [a.vocabulary.resolve a.vocabulary.size]
        (a.vocabulary.resolve next)] = _
      rw [hunknown, hsame]
    rw [hresolved]
    show [(scoreAfter index [unknownId] next).1.length] = [2]
    rw [hlength, Trie.isSome_extend h.graded bits (Trie.stands_word hnext), if_pos hsome]

end Tries

/-- Where the unknown word is in no context, every kind of model answers the resolved calls alike;
the hash tables if they tell apart what both runs look up. -/
theorem run_resolved {kind : Kind} (hcontext : a.NoUnknownContext)
    (requests : List LanguageModel.Request) :
    let lm := (ofArpa bits a : Model kind.Index).toLanguageModel
    (kind = .probing → Probing.TellApart bits a requests ∧
      Probing.TellApart bits a (lm.resolved requests)) →
    lm.run [] (lm.resolved requests) =
      (lm.run [] requests).map (renameAnswer a.vocabulary.resolve) := by
  intro lm hapart
  cases kind with
  | probing =>
    obtain ⟨hraw, hresolved⟩ := hapart rfl
    have hrun := Agreement.run_eq h bits [] requests hraw
    have hrun' := Agreement.run_eq h bits [] (lm.resolved requests) hresolved
    show (ofArpa bits a : Model Probing).toLanguageModel.run [] (lm.resolved requests) =
      ((ofArpa bits a : Model Probing).toLanguageModel.run [] requests).map _
    rw [hrun, hrun']
    exact trie_run_resolved h bits hcontext requests
  | trie => exact trie_run_resolved h bits hcontext requests
  | arrayTrie => exact trie_run_resolved h bits hcontext requests
  | quantTrie => exact trie_run_resolved h bits hcontext requests
  | quantArrayTrie => exact trie_run_resolved h bits hcontext requests

/-- Where an n-gram puts another word after the unknown one, every kind of model finds it after the
unknown word, and not after a number outside the vocabulary; the hash tables if they tell apart what
both runs look up. -/
theorem run_unknown {kind : Kind} {next : WordId}
    (hsome : (a.weights? [unknownId, next]).isSome = true) :
    let lm := (ofArpa bits a : Model kind.Index).toLanguageModel
    let requests : List LanguageModel.Request := [.inContext [a.vocabulary.size] next]
    (kind = .probing → Probing.TellApart bits a requests ∧
      Probing.TellApart bits a (lm.resolved requests)) →
    (lm.run [] requests).map (fun x => x.1.length) = [1] ∧
      (lm.run [] (lm.resolved requests)).map (fun x => x.1.length) = [2] := by
  intro lm requests hapart
  cases kind with
  | probing =>
    obtain ⟨hraw, hresolved⟩ := hapart rfl
    have hrun := Agreement.run_eq h bits [] requests hraw
    have hrun' := Agreement.run_eq h bits [] (lm.resolved requests) hresolved
    show ((ofArpa bits a : Model Probing).toLanguageModel.run [] requests).map _ = _ ∧
      ((ofArpa bits a : Model Probing).toLanguageModel.run [] (lm.resolved requests)).map _ = _
    rw [hrun, hrun']
    exact trie_run_unknown h bits hsome
  | trie => exact trie_run_unknown h bits hsome
  | arrayTrie => exact trie_run_unknown h bits hsome
  | quantTrie => exact trie_run_unknown h bits hsome
  | quantArrayTrie => exact trie_run_unknown h bits hsome

omit h

/-- Numbers outside the vocabulary of a model that was built from a file. Scored, such a number has
the score of the unknown word in every state. In a run of calls all of them may be replaced by the
unknown word, with the same scores and the replaced words in the states, if no n-gram of the file
has the unknown word before its last one. In a closed file that has such an n-gram, some word has
another score after a number outside the vocabulary than after the unknown word. Of the hash tables
this holds if they tell apart what both runs look up. -/
theorem resolved_scores {kind : Kind} {bytes : List UInt8} {atMost : Option Nat} {a : Arpa}
    (h : Arpa.ofBytes bytes atMost = .ok a) (bits : Nat) :
    let lm := (ofArpa bits a : Model kind.Index).toLanguageModel
    let ToldApart (requests : List LanguageModel.Request) : Prop := kind = .probing →
      Probing.TellApart bits a requests ∧ Probing.TellApart bits a (lm.resolved requests)
    (∀ state word, (lm.score state (lm.vocabulary.resolve word)).1 = (lm.score state word).1) ∧
    (a.NoUnknownContext → ∀ requests, ToldApart requests →
      lm.run [] (lm.resolved requests) =
        (lm.run [] requests).map (renameAnswer lm.vocabulary.resolve)) ∧
    (a.Closed → ¬ a.NoUnknownContext → ∃ next,
      let requests : List LanguageModel.Request := [.inContext [lm.vocabulary.size] next]
      ToldApart requests →
        (lm.run [] requests).map (fun x => x.1.length) = [1] ∧
          (lm.run [] (lm.resolved requests)).map (fun x => x.1.length) = [2]) := by
  intro lm ToldApart
  have hwell := Arpa.ofBytes_wellFormed h
  refine ⟨fun state word => ?_, fun hcontext requests => run_resolved hwell bits hcontext requests,
    fun hclosed hcontext => ?_⟩
  · show (score (ofArpa bits a : Model kind.Index).index state (a.vocabulary.resolve word)).1 =
      (score (ofArpa bits a : Model kind.Index).index state word).1
    rw [hwell.resolve_eq]
    exact score_fst_congr _ (unigram_resolve hwell bits kind word) state
  · obtain ⟨next, hsome⟩ := Arpa.exists_weights?_unknown hwell hclosed hcontext
    exact ⟨next, run_unknown hwell bits hsome⟩

/-- A run over the hash tables of a file of order 4, with numbers of no word that are scored, stand
in contexts, and stay in states for later calls. -/
theorem resolved_scores_sample :
    let lm := (ofArpa 8 Arpa.sampleArpa : Model Kind.probing.Index).toLanguageModel
    let requests : List LanguageModel.Request := [.inContext [9, 2] 3, .inState (.result 0) 12,
      .inState (.result 1) 2, .inContext [2, 7] 4]
    Arpa.ofBytes Arpa.sample none = .ok Arpa.sampleArpa ∧ Arpa.sampleArpa.NoUnknownContext ∧
      Probing.TellApart 8 Arpa.sampleArpa requests ∧
      lm.resolved requests = [.inContext [0, 2] 3, .inState (.result 0) 0,
        .inState (.result 1) 2, .inContext [2, 0] 0] ∧
      lm.run [] (lm.resolved requests) =
        (lm.run [] requests).map (renameAnswer lm.vocabulary.resolve) := by
  intro lm requests
  have hcontext : Arpa.sampleArpa.NoUnknownContext := by decide
  have hraw : Probing.TellApart 8 Arpa.sampleArpa requests := by decide +kernel
  have hresolved : Probing.TellApart 8 Arpa.sampleArpa (lm.resolved requests) := by decide +kernel
  exact ⟨Arpa.ofBytes_sample, hcontext, hraw, rfl,
    (@resolved_scores .probing _ _ _ Arpa.ofBytes_sample 8).2.1 hcontext requests
      fun _ => ⟨hraw, hresolved⟩⟩

end Model

end BackoffLM

import BackoffLM.Proofs.Scoring.Registration
import BackoffLM.Proofs.Scoring.Sequence
import BackoffLM.Sentence

/-!
# The words of a sentence and its total

`sentenceLogProb` adds up the scores of a sentence's words from state to state, and `wordLogProbs`
scores each word in a window of as many words as the order. `total_sameNumber_words` says when these
are the same scores: in every loaded model that stores the left context of every n-gram that a state
can hold (`ContextClosed`), which up to order 3 is every loaded model (`contextClosed_of_order_le`).
Both number the words first, and numbering keeps what scoring relies on (`Serves`): every number
leads to a word of the model's vocabulary.
-/

namespace BackoffLM.SentenceScorer

open NgramIndex
open BackoffLM.Action (run_bind_ok run_bind_error run_get run_modify run_within)

/-! ## Numbering words -/

variable {kind : Kind} {m : Model kind.Index} {s : SentenceScorer}

/-- A scorer of a model whose numbers lead to words of the model's vocabulary. -/
structure Serves (s : SentenceScorer) (m : Model kind.Index) : Prop where
  model_eq : s.scorer.model = m.toLanguageModel
  wordOf_lt : ∀ id, s.scorer.ids.wordOf id < m.vocabulary.size
  /-- The numbers from here on are the caller's to give. -/
  nextId_pos : 0 < s.nextId

/-- A scorer that has seen no token leads every number to the unknown word. -/
theorem serves_ofScorer (hm : m.Loaded) (oov : OovScoring) (options : SentenceOptions) :
    (ofScorer (.ofModel m.toLanguageModel oov) options).Serves m where
  model_eq := rfl
  wordOf_lt id := by
    have hpos : 0 < m.vocabulary.size := Nat.lt_of_le_of_lt (Nat.zero_le _) (hm.idOf_lt "")
    show IdMap.empty.wordOf id < m.vocabulary.size
    rw [IdMap.wordOf_eq, IdMap.registered?_empty]
    exact hpos
  nextId_pos := Nat.one_pos

/-- A positive number is registered for a token. -/
theorem run_register (s : SentenceScorer) (token : String) {id : Nat} (hpos : 0 < id) :
    ∃ known ids, (Action.within scorer (fun scorer s => { s with scorer })
        (Scorer.register token (Int.ofNat id))).run.run s =
      (.ok known, { s with scorer := { s.scorer with ids } }) ∧
      ∀ other, ids.wordOf other =
        if Int.ofNat id = other then s.scorer.model.vocabulary.idOf token
        else s.scorer.ids.wordOf other := by
  have hid : 0 < Int.ofNat id := Int.natCast_pos.mpr hpos
  exact ⟨_, _, run_within (Scorer.run_register s.scorer token hid fun _ => rfl),
    IdMap.wordOf_insert _ hid _⟩

/-- A token has a number or gets the next one, unless that is the last. -/
theorem run_idOf (hm : m.Loaded) (h : s.Serves m) (token : String) :
    (∃ id s', (idOf token).run.run s = (.ok id, s') ∧ s'.Serves m ∧ s'.nextId ≤ s.nextId + 1) ∨
      ∃ s', (idOf token).run.run s = (.error .idsExhausted, s') ∧ s.nextId = maxId := by
  unfold idOf
  rw [run_bind_ok run_get]
  cases hknown : s.ids[token]? with
  | some id => exact .inl ⟨id, s, rfl, h, Nat.le_succ _⟩
  | none =>
    obtain ⟨known, numbered, hregister, hwords⟩ := run_register s token h.nextId_pos
    -- The number leads to the token's word, and the others where they led before.
    have hserves : ∀ id, numbered.wordOf id < m.vocabulary.size := by
      intro id
      rw [hwords]
      split
      · rw [h.model_eq]
        exact hm.idOf_lt token
      · exact h.wordOf_lt id
    dsimp only
    rw [run_bind_ok hregister]
    by_cases hlast : s.nextId = maxId
    · rw [if_pos hlast]
      exact .inr ⟨_, rfl, hlast⟩
    · rw [if_neg hlast, run_bind_ok (run_modify _)]
      exact .inl ⟨_, _, rfl, ⟨h.model_eq, hserves, Nat.succ_pos _⟩, Nat.le_refl _⟩

/-- Words are numbered one by one, unless the numbers run out. -/
theorem run_idsOf (hm : m.Loaded) (h : s.Serves m) (words : List String) :
    (∃ ids s', (idsOf words).run.run s = (.ok ids, s') ∧ s'.Serves m ∧
        ids.length = words.length) ∨
      ∃ s', (idsOf words).run.run s = (.error .idsExhausted, s') ∧
        maxId < s.nextId + words.length := by
  unfold idsOf
  induction words generalizing s with
  | nil => exact .inl ⟨[], s, rfl, h, rfl⟩
  | cons word words ih =>
    rw [List.mapM_cons, List.length_cons]
    rcases run_idOf hm h word with ⟨id, s₁, hid, h₁, hnext⟩ | ⟨s₁, hid, hlast⟩
    · rw [run_bind_ok hid]
      rcases ih h₁ with ⟨ids, s₂, hids, h₂, hlen⟩ | ⟨s₂, hids, hlast⟩
      · rw [run_bind_ok hids]
        exact .inl ⟨id :: ids, s₂, rfl, h₂, by rw [List.length_cons, hlen]⟩
      · rw [run_bind_error hids]
        exact .inr ⟨s₂, rfl, by omega⟩
    · rw [run_bind_error hid]
      exact .inr ⟨s₁, rfl, by omega⟩

/-! ## Windows -/

/-- The scores of a window and of all words up to its end are the same when the window has as many
words as the order. -/
theorem prob_window (hm : m.Loaded) {scorer : Scorer} (hs : scorer.model = m.toLanguageModel)
    (ids : List ExternalId) {i : Nat} (hi : i < ids.length) :
    scorer.prob (window ids (max scorer.model.order 1) (i + 1)) =
      scorer.prob (ids.take (i + 1)) := by
  obtain ⟨hpos, -⟩ := hm.order_bounds
  have horder : max scorer.model.order 1 = contextLimit m.index + 1 := by
    rw [hs]
    show max (order m.index) 1 = order m.index - 1 + 1
    omega
  -- Both end in the same number, after as many numbers as a score can use.
  have htake : ids.take (i + 1) = ids.take i ++ [ids[i]] := (List.take_append_getElem hi).symm
  have hwindow : window ids (contextLimit m.index + 1) (i + 1) =
      (ids.take i).drop (i - contextLimit m.index) ++ [ids[i]] := by
    rw [window, htake, Nat.add_sub_add_right, List.drop_append_of_le_length]
    rw [List.length_take]
    omega
  rw [horder, hwindow, htake]
  refine Scorer.prob_append_congr hm hs ?_ _
  rw [List.reverse_drop, List.take_take, List.take_eq_take_iff, List.length_reverse,
    List.length_take]
  omega

/-- The scored words of a sentence, each with its score in its window. -/
def windowScores (scorer : Scorer) (words : List String) (ids : List ExternalId) :
    List (String × LogProb) :=
  (words.drop (leading words)).zipIdx.map fun (word, i) =>
    (word, scorer.prob (window ids (max scorer.model.order 1) (leading words + i + 1)))

/-- There is a score for each scored word. -/
theorem map_fst_windowScores (scorer : Scorer) (words : List String) (ids : List ExternalId) :
    (windowScores scorer words ids).map Prod.fst = scoredWords words := by
  unfold windowScores scoredWords
  rw [List.map_map]
  exact List.zipIdx_map_fst 0 _

/-- The scores in windows are those after all words before. -/
theorem map_snd_windowScores (hm : m.Loaded) {scorer : Scorer}
    (hs : scorer.model = m.toLanguageModel) {words : List String} {ids : List ExternalId}
    (hlen : ids.length = words.length) :
    (windowScores scorer words ids).map Prod.snd = scorer.probsFrom ids (leading words) := by
  apply List.ext_getElem
  · simp [windowScores, Scorer.probsFrom, hlen]
  · intro i hi hi'
    have hbound : leading words + i < ids.length := by
      simp only [windowScores, List.length_map, List.length_zipIdx, List.length_drop] at hi
      omega
    simp only [windowScores, Scorer.probsFrom, List.getElem_map, List.getElem_zipIdx,
      List.getElem_range', Nat.zero_add, Nat.one_mul]
    exact prob_window hm hs ids hbound

/-! ## Sentences -/

section

variable {tokens : List String} {s' : SentenceScorer}

/-- The operations on a sentence once its words have numbers. -/
theorem run_of_idsOf_ok {ids : List ExternalId}
    (h : (idsOf (s.options.sentenceWords tokens)).run.run s = (.ok ids, s')) :
    let words := s.options.sentenceWords tokens
    (sentenceLogProb tokens).run.run s =
        (.ok (s'.scorer.probString ids (leading words)), s') ∧
      (wordLogProbs tokens).run.run s = (.ok (windowScores s'.scorer words ids), s') ∧
      (scoredWords words ≠ [] → (perplexity tokens).run.run s =
        (.ok (LogScale.perplexity ((s'.scorer.probString ids (leading words)).toDouble /
          Float.ofNat (scoredWords words).length)), s')) := by
  have htotal : (sentenceLogProb tokens).run.run s =
      (.ok (s'.scorer.probString ids (leading (s.options.sentenceWords tokens))), s') := by
    unfold sentenceLogProb
    rw [run_bind_ok run_get]
    dsimp only
    rw [run_bind_ok h, run_bind_ok run_get]
    rfl
  refine ⟨htotal, ?_, fun hscored => ?_⟩
  · unfold wordLogProbs
    rw [run_bind_ok run_get]
    dsimp only
    rw [run_bind_ok h, run_bind_ok run_get]
    rfl
  · unfold perplexity
    rw [run_bind_ok run_get]
    dsimp only
    rw [if_neg (fun h0 => hscored (List.eq_nil_of_length_eq_zero h0)), run_bind_ok htotal]
    rfl

/-- The operations on a sentence when the numbers run out. -/
theorem run_of_idsOf_error {e : CallError}
    (h : (idsOf (s.options.sentenceWords tokens)).run.run s = (.error e, s')) :
    (sentenceLogProb tokens).run.run s = (.error e, s') ∧
      (wordLogProbs tokens).run.run s = (.error e, s') := by
  constructor
  · unfold sentenceLogProb
    rw [run_bind_ok run_get]
    dsimp only
    rw [run_bind_error h]
  · unfold wordLogProbs
    rw [run_bind_ok run_get]
    dsimp only
    rw [run_bind_error h]

end

/-- In every loaded model that stores, with each n-gram that a state can hold, the n-gram without
its last word, the log probability of a sentence is, as a number, the sum from left to right of
those of its words. There is one for each word that is scored, which are the words that the
perplexity is over. Either both are found or the numbers run out in both. -/
theorem total_sameNumber_words (hm : m.Loaded)
    (hclosed : ContextClosed m.index m.vocabulary.size) (h : s.Serves m) (tokens : List String) :
    (∃ total scores s', (sentenceLogProb tokens).run.run s = (.ok total, s') ∧
        (wordLogProbs tokens).run.run s = (.ok scores, s') ∧
        total.SameNumber ((scores.map Prod.snd).foldl (· + ·) .zero) ∧
        scores.map Prod.fst = scoredWords (s.options.sentenceWords tokens) ∧
        (scores ≠ [] → (perplexity tokens).run.run s =
          (.ok (LogScale.perplexity (total.toDouble / Float.ofNat scores.length)), s'))) ∨
      ∃ s', (sentenceLogProb tokens).run.run s = (.error .idsExhausted, s') ∧
        (wordLogProbs tokens).run.run s = (.error .idsExhausted, s') ∧
        maxId < s.nextId + (s.options.sentenceWords tokens).length := by
  rcases run_idsOf hm h (s.options.sentenceWords tokens) with
    ⟨ids, s', hids, hserves, hlen⟩ | ⟨s', hids, hlast⟩
  · obtain ⟨htotal, hscores, hperplexity⟩ := run_of_idsOf_ok hids
    have hfst := map_fst_windowScores s'.scorer (s.options.sentenceWords tokens) ids
    have hcount := congrArg List.length hfst
    rw [List.length_map] at hcount
    refine .inl ⟨_, _, s', htotal, hscores, ?_, hfst, fun hne => ?_⟩
    · rw [map_snd_windowScores hm hserves.model_eq hlen]
      rcases Nat.lt_or_ge (leading (s.options.sentenceWords tokens)) ids.length with hlt | hge
      · exact Scorer.probString_eq_sum hm hserves.model_eq hclosed hserves.wordOf_lt ids hlt
      · -- No word is scored, and both sums are empty.
        obtain ⟨hzero, hnil⟩ := s'.scorer.probString_of_length_le hge
        rw [hzero, hnil]
        exact LogProb.SameNumber.refl _
    · rw [hcount]
      refine hperplexity fun hnil => hne ?_
      rw [hnil, List.length_nil] at hcount
      exact List.eq_nil_of_length_eq_zero hcount
  · obtain ⟨htotal, hscores⟩ := run_of_idsOf_error hids
    exact .inr ⟨s', htotal, hscores, hlast⟩

/-- The sentence `<s> a b a` in the small trie of order 4, by a scorer that has seen no token. -/
theorem total_sameNumber_words_sample :
    let m : Model Kind.trie.Index := Model.ofArpa 8 Arpa.sampleArpa
    let s := ofScorer (.ofModel m.toLanguageModel ⟨⟨0xC1200000⟩, .reservedIdOnly⟩)
      ⟨false, false, "_", false⟩
    m.Loaded ∧ ContextClosed m.index m.vocabulary.size ∧ s.Serves m ∧
      ∃ total scores s',
        (sentenceLogProb ["<s>", "a", "b", "a"]).run.run s = (.ok total, s') ∧
        (wordLogProbs ["<s>", "a", "b", "a"]).run.run s = (.ok scores, s') ∧
        total.SameNumber ((scores.map Prod.snd).foldl (· + ·) .zero) ∧
        scores.map Prod.fst = ["a", "b", "a"] := by
  intro m s
  have hm : m.Loaded := .arpa 8 Arpa.ofBytes_sample
  have hclosed : ContextClosed m.index m.vocabulary.size :=
    (Trie.leftClosed_ofArpa (Arpa.ofBytes_wellFormed Arpa.ofBytes_sample) (by decide) 8 _).closedTo
      _
  have hs : s.Serves m := serves_ofScorer hm _ _
  refine ⟨hm, hclosed, hs, ?_⟩
  rcases total_sameNumber_words hm hclosed hs ["<s>", "a", "b", "a"] with
    ⟨total, scores, s', htotal, hscores, hsum, hwords, -⟩ | ⟨s', -, -, hlast⟩
  · exact ⟨total, scores, s', htotal, hscores, hsum, hwords⟩
  · exact absurd hlast (by decide)

end BackoffLM.SentenceScorer

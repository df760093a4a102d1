import BackoffLM.Proofs.Runs
import BackoffLM.Proofs.Scoring.Renumbering
import BackoffLM.Proofs.Scoring.Sentence

/-!
# The scores of sentences do not depend on earlier calls

A scorer of sentences numbers tokens as it meets them, so what it has numbered depends on all calls
before. Its two tables hold one numbering (`Numbers`): the tokens have the numbers 1, 2 and so on in
the order of first sight, and each number leads to the model's word for its token. Every call keeps
that (`next_spec`), and a run of calls with it (`numbers_stateAfter`). A score sees of a number only
where it leads, which is the same in every such numbering; so each scoring call returns what it
returns as the first call of all (`replies_eq_fresh`).
-/

namespace BackoffLM.SentenceScorer

open BackoffLM.Action (run_bind_ok run_get run_modify)

/-! ## Calls -/

/-- A call on a scorer of sentences. -/
inductive Call where
  | id (token : String)
  | logProb (tokens : List String)
  | sentenceLogProb (tokens : List String)
  | wordLogProbs (tokens : List String)
  | perplexity (tokens : List String)
  deriving DecidableEq, Repr

/-- What a call returns. -/
inductive Reply where
  | id (id : ExternalId)
  | logProb (value : LogProb)
  | wordLogProbs (values : List (String × LogProb))
  | perplexity (value : Float)

namespace Call

/-- Whether a call asks for scores. -/
def Scores : Call → Prop
  | .id _ => False
  | _ => True

/-- The operation that a call is. -/
def perform : Call → Action Reply
  | .id token => return .id (← idOf token)
  | .logProb tokens => return .logProb (← SentenceScorer.logProb tokens)
  | .sentenceLogProb tokens => return .logProb (← SentenceScorer.sentenceLogProb tokens)
  | .wordLogProbs tokens => return .wordLogProbs (← SentenceScorer.wordLogProbs tokens)
  | .perplexity tokens => return .perplexity (← SentenceScorer.perplexity tokens)

/-- The tokens that a call numbers, unless they have numbers. Where no word is scored the perplexity
is known without any. -/
def tokens (o : SentenceOptions) : Call → List String
  | .id token => [token]
  | .logProb tokens => o.normalize tokens
  | .sentenceLogProb tokens => o.sentenceWords tokens
  | .wordLogProbs tokens => o.sentenceWords tokens
  | .perplexity tokens =>
    if scoredWords (o.sentenceWords tokens) = [] then [] else o.sentenceWords tokens

/-- What a call returns once its tokens have numbers. -/
def reply (o : SentenceOptions) (scorer : Scorer) (ids : List ExternalId) : Call → Reply
  | .id _ => .id (ids.headD reservedId)
  | .logProb _ => .logProb (scorer.prob ids)
  | .sentenceLogProb tokens => .logProb (scorer.probString ids (leading (o.sentenceWords tokens)))
  | .wordLogProbs tokens => .wordLogProbs (windowScores scorer (o.sentenceWords tokens) ids)
  | .perplexity tokens =>
    let words := o.sentenceWords tokens
    if scoredWords words = [] then .perplexity 1.0
    else .perplexity (LogScale.perplexity
      ((scorer.probString ids (leading words)).toDouble / Float.ofNat (scoredWords words).length))

end Call

/-- Makes a call. -/
def next (s : SentenceScorer) (call : Call) : Except CallError Reply × SentenceScorer :=
  call.perform.run.run s

section

variable {s s' : SentenceScorer}

/-- A call returns its reply once its tokens have numbers. -/
theorem next_of_idsOf {call : Call} (hcall : call.Scores) {ids : List ExternalId}
    (h : (idsOf (call.tokens s.options)).run.run s = (.ok ids, s')) :
    s.next call = (.ok (call.reply s.options s'.scorer ids), s') := by
  unfold next
  cases call with
  | id token => exact absurd hcall id
  | logProb tokens =>
    have hids : (idsOf (s.options.normalize tokens)).run.run s = (.ok ids, s') := h
    have hprob : (logProb tokens).run.run s = (.ok (s'.scorer.prob ids), s') := by
      unfold logProb
      rw [run_bind_ok run_get, run_bind_ok hids, run_bind_ok run_get]
      rfl
    exact run_bind_ok hprob
  | sentenceLogProb tokens => exact run_bind_ok (run_of_idsOf_ok h).1
  | wordLogProbs tokens => exact run_bind_ok (run_of_idsOf_ok h).2.1
  | perplexity tokens =>
    by_cases hscored : scoredWords (s.options.sentenceWords tokens) = []
    · rw [Call.tokens, if_pos hscored] at h
      obtain ⟨-, rfl⟩ : Except.ok [] = Except.ok ids ∧ s = s' := Prod.mk.inj h
      have hone : (perplexity tokens).run.run s = (.ok 1.0, s) := by
        unfold perplexity
        rw [run_bind_ok run_get]
        dsimp only
        rw [hscored]
        rfl
      rw [Call.reply, if_pos hscored]
      exact run_bind_ok hone
    · rw [Call.tokens, if_neg hscored] at h
      rw [Call.reply, if_neg hscored]
      exact run_bind_ok ((run_of_idsOf_ok h).2.2 hscored)

/-- Numbers that look alike lead to the same scores. -/
theorem reply_congr {call : Call} (hcall : call.Scores) (o : SentenceOptions)
    {scorer other : Scorer} {ids others : List ExternalId}
    (h : Scorer.SeeAlike scorer other ids others) :
    call.reply o scorer ids = call.reply o other others := by
  cases call with
  | id token => exact absurd hcall id
  | logProb tokens => exact congrArg Reply.logProb h.prob_eq
  | sentenceLogProb tokens => exact congrArg Reply.logProb (h.probString_eq _)
  | wordLogProbs tokens =>
    have hwindow : ∀ count n,
        scorer.prob (window ids count n) = other.prob (window others count n) :=
      fun count n => ((h.take n).drop (n - count)).prob_eq
    simp only [Call.reply, windowScores, hwindow, h.model_eq]
  | perplexity tokens => simp only [Call.reply, h.probString_eq]

end

/-! ## First sights -/

/-- A token is new the first time, and only then. -/
theorem eraseDups_concat (tokens : List String) (token : String) :
    (tokens ++ [token]).eraseDups =
      if token ∈ tokens then tokens.eraseDups else tokens.eraseDups ++ [token] := by
  rw [List.eraseDups_append, List.removeAll]
  by_cases h : token ∈ tokens <;> simp [h, List.eraseDups_cons]

/-- What stands at a place of a list with one more at the end. -/
theorem getElem?_concat_eq_some_iff {tokens : List String} {token other : String} {k : Nat} :
    (tokens ++ [token])[k]? = some other ↔
      tokens[k]? = some other ∨ k = tokens.length ∧ token = other := by
  rw [List.getElem?_append]
  split
  · rename_i hk
    exact (or_iff_left fun hlast => absurd hlast.1 (Nat.ne_of_lt hk)).symm
  · rename_i hk
    rw [List.getElem?_eq_none (Nat.not_lt.mp hk), List.getElem?_singleton]
    split
    · have hlast : k = tokens.length := by omega
      simp [hlast]
    · have hlast : k ≠ tokens.length := by omega
      simp [hlast]

/-- Tokens met later come after those met before. -/
theorem prefix_eraseDups (tokens later : List String) :
    tokens.eraseDups <+: (tokens ++ later).eraseDups := by
  rw [List.eraseDups_append]
  exact List.prefix_append _ _

theorem nodup_eraseDups (tokens : List String) : tokens.eraseDups.Nodup := by
  induction tokens using List.reverseRecOn with
  | nil => exact List.nodup_nil
  | append_singleton tokens token ih =>
    rw [eraseDups_concat]
    split
    · exact ih
    · rename_i hnew
      refine List.nodup_append.mpr ⟨ih, List.nodup_singleton token, fun old hold new hnew' => ?_⟩
      rw [List.mem_singleton.mp hnew']
      exact ne_of_mem_of_not_mem (List.mem_eraseDups.mp hold) hnew

/-- Among more tokens there are no fewer different ones. -/
theorem length_eraseDups_le {tokens others : List String} (h : tokens ⊆ others) :
    tokens.eraseDups.length ≤ others.eraseDups.length := by
  refine ((nodup_eraseDups tokens).subperm fun token htoken => ?_).length_le
  exact List.mem_eraseDups.mpr (h (List.mem_eraseDups.mp htoken))

/-! ## One numbering in both tables -/

/-- The tokens met so far are numbered from 1 on in the order of first sight, and their numbers lead
to the model's words for them. -/
structure Numbers (model : LanguageModel) (oov : OovScoring) (o : SentenceOptions)
    (met : List String) (s : SentenceScorer) : Prop where
  model_eq : s.scorer.model = model
  oov_eq : s.scorer.oov = oov
  options_eq : s.options = o
  nextId_eq : s.nextId = met.eraseDups.length + 1
  ids_iff : ∀ {token : String} {id : ExternalId},
    s.ids[token]? = some id ↔ ∃ k : Nat, met.eraseDups[k]? = some token ∧ id = k + 1
  leads : ∀ {token : String} {id : ExternalId},
    s.ids[token]? = some id → s.scorer.ids.wordOf id = model.vocabulary.idOf token

variable {model : LanguageModel} {oov : OovScoring} {o : SentenceOptions} {met : List String}
  {s : SentenceScorer}

/-- A scorer of sentences that has met no token, whatever was registered with its model before. -/
theorem numbers_ofScorer (served : IdMap) :
    Numbers model oov o [] (ofScorer ⟨model, oov, served⟩ o) where
  model_eq := rfl
  oov_eq := rfl
  options_eq := rfl
  nextId_eq := rfl
  ids_iff {token id} := by simp [ofScorer]
  leads {token id} h := by simp [ofScorer] at h

namespace Numbers

/-- A token has a number when it was met. -/
theorem isSome_iff (h : Numbers model oov o met s) (token : String) :
    (s.ids[token]?).isSome = true ↔ token ∈ met := by
  rw [← List.mem_eraseDups, List.mem_iff_getElem?, Option.isSome_iff_exists]
  constructor
  · rintro ⟨id, hid⟩
    obtain ⟨k, hk, -⟩ := h.ids_iff.mp hid
    exact ⟨k, hk⟩
  · rintro ⟨k, hk⟩
    exact ⟨_, h.ids_iff.mpr ⟨k, hk, rfl⟩⟩

/-- A number once given stays. -/
theorem keeps {s' : SentenceScorer} {later : List String} (h : Numbers model oov o met s)
    (h' : Numbers model oov o (met ++ later) s') {token : String} {id : ExternalId}
    (hid : s.ids[token]? = some id) : s'.ids[token]? = some id := by
  obtain ⟨k, hk, rfl⟩ := h.ids_iff.mp hid
  obtain ⟨rest, hrest⟩ := prefix_eraseDups met later
  refine h'.ids_iff.mpr ⟨k, ?_, rfl⟩
  rw [← hrest, List.getElem?_append_left (List.getElem?_eq_some_iff.mp hk).1, hk]

/-- A number is positive. -/
theorem pos (h : Numbers model oov o met s) {token : String} {id : ExternalId}
    (hid : s.ids[token]? = some id) : 0 < id := by
  obtain ⟨k, -, rfl⟩ := h.ids_iff.mp hid
  exact Int.lt_add_one_of_le (Int.natCast_nonneg k)

/-- A token gets the next number when it is met first, and otherwise has its number. -/
theorem run_idOf (h : Numbers model oov o met s) (token : String)
    (hroom : (met ++ [token]).eraseDups.length < maxId) :
    ∃ id s', (idOf token).run.run s = (.ok id, s') ∧ Numbers model oov o (met ++ [token]) s' ∧
      s'.ids[token]? = some id := by
  rw [eraseDups_concat] at hroom
  unfold idOf
  rw [run_bind_ok run_get]
  cases hknown : s.ids[token]? with
  | some id =>
    have hmet : token ∈ met := (h.isSome_iff token).mp (by rw [hknown, Option.isSome_some])
    have hsame : (met ++ [token]).eraseDups = met.eraseDups := by
      rw [eraseDups_concat, if_pos hmet]
    refine ⟨id, s, rfl, ⟨h.model_eq, h.oov_eq, h.options_eq, ?_, ?_, h.leads⟩, hknown⟩
    · rw [hsame, h.nextId_eq]
    · intro other number
      rw [hsame, h.ids_iff]
  | none =>
    have hnew : token ∉ met := fun hmet => by
      have hsome := (h.isSome_iff token).mpr hmet
      rw [hknown] at hsome
      exact Bool.false_ne_true hsome
    rw [if_neg hnew, List.length_append, List.length_singleton, ← h.nextId_eq] at hroom
    have hgrown : (met ++ [token]).eraseDups = met.eraseDups ++ [token] := by
      rw [eraseDups_concat, if_neg hnew]
    obtain ⟨known, ids, hregister, hwords⟩ := run_register s token
      (show 0 < s.nextId by rw [h.nextId_eq]; omega)
    dsimp only
    rw [run_bind_ok hregister, if_neg (Nat.ne_of_lt hroom), run_bind_ok (run_modify _)]
    refine ⟨_, _, rfl, ⟨h.model_eq, h.oov_eq, h.options_eq, ?_, ?_, ?_⟩,
      Std.HashMap.getElem?_insert_self⟩
    · rw [hgrown, List.length_append, List.length_singleton, h.nextId_eq]
    · intro other number
      show (s.ids.insert token (Int.ofNat s.nextId))[other]? = some number ↔ _
      rw [Std.HashMap.getElem?_insert, hgrown]
      simp only [getElem?_concat_eq_some_iff, beq_iff_eq]
      by_cases hother : token = other
      · subst hother
        rw [if_pos rfl, Option.some.injEq, h.nextId_eq]
        constructor
        · rintro rfl
          exact ⟨_, .inr ⟨rfl, rfl⟩, rfl⟩
        · rintro ⟨k, hk | ⟨rfl, -⟩, rfl⟩
          · exact absurd (List.mem_eraseDups.mp (List.mem_of_getElem? hk)) hnew
          · rfl
      · simp only [hother, if_false, and_false, or_false]
        exact h.ids_iff
    · intro other number hnumber
      have hnumber : (s.ids.insert token (Int.ofNat s.nextId))[other]? = some number := hnumber
      show ids.wordOf number = _
      rw [Std.HashMap.getElem?_insert] at hnumber
      rw [hwords]
      by_cases hother : token = other
      · subst hother
        rw [if_pos (beq_self_eq_true token), Option.some.injEq] at hnumber
        rw [if_pos hnumber, h.model_eq]
      · rw [if_neg (by rwa [beq_iff_eq])] at hnumber
        have hbefore : Int.ofNat s.nextId ≠ number := by
          obtain ⟨k, hk, rfl⟩ := h.ids_iff.mp hnumber
          have hlt := (List.getElem?_eq_some_iff.mp hk).1
          rw [h.nextId_eq]
          exact fun heq => Nat.ne_of_lt (Nat.succ_lt_succ hlt) (Int.ofNat.inj heq).symm
        rw [if_neg hbefore]
        exact h.leads hnumber

/-- Words are numbered one by one. -/
theorem run_idsOf (h : Numbers model oov o met s) (words : List String)
    (hroom : (met ++ words).eraseDups.length < maxId) :
    ∃ ids s', (idsOf words).run.run s = (.ok ids, s') ∧ Numbers model oov o (met ++ words) s' ∧
      words.map (s'.ids[·]?) = ids.map some := by
  unfold idsOf
  induction words generalizing met s with
  | nil => exact ⟨[], s, rfl, (List.append_nil met).symm ▸ h, rfl⟩
  | cons word words ih =>
    rw [List.append_cons] at hroom ⊢
    obtain ⟨id, s₁, hid, h₁, hknown⟩ := h.run_idOf word <| Nat.lt_of_le_of_lt
      (length_eraseDups_le (List.subset_append_left _ _)) hroom
    obtain ⟨ids, s₂, hids, h₂, hwords⟩ := ih h₁ hroom
    rw [List.mapM_cons, run_bind_ok hid, run_bind_ok hids]
    refine ⟨id :: ids, s₂, rfl, h₂, ?_⟩
    rw [List.map_cons, List.map_cons, h₁.keeps h₂ hknown, hwords]

/-- What the scorer sees of a token's number is known from the token. -/
theorem sight_eq (h : Numbers model oov o met s) {token : String} {id : ExternalId}
    (hid : s.ids[token]? = some id) :
    s.scorer.sight id =
      (model.vocabulary.idOf token, oov.isFake 1 (model.vocabulary.idOf token)) := by
  rw [Scorer.sight, Scorer.isFake, h.leads hid, h.oov_eq]
  congr 1
  unfold OovScoring.isFake
  cases oov.policy with
  | remappedUnknown => rfl
  | reservedIdOnly => exact beq_eq_false_iff_ne.mpr (Int.ne_of_gt (h.pos hid))

/-- Two scorers that have numbered the same words see the same in their numbers, whatever else each
has met. -/
theorem seeAlike {others : List String} {t : SentenceScorer} (h : Numbers model oov o met s)
    (ht : Numbers model oov o others t) {words : List String} {ids ids' : List ExternalId}
    (hids : words.map (s.ids[·]?) = ids.map some)
    (hids' : words.map (t.ids[·]?) = ids'.map some) :
    Scorer.SeeAlike s.scorer t.scorer ids ids' := by
  refine ⟨by rw [h.model_eq, ht.model_eq], by rw [h.oov_eq, ht.oov_eq], ?_⟩
  induction words generalizing ids ids' with
  | nil =>
    obtain rfl := List.map_eq_nil_iff.mp hids.symm
    obtain rfl := List.map_eq_nil_iff.mp hids'.symm
    rfl
  | cons word words ih =>
    obtain ⟨id, rest, rfl, hid, hrest⟩ := List.map_eq_cons_iff.mp hids.symm
    obtain ⟨id', rest', rfl, hid', hrest'⟩ := List.map_eq_cons_iff.mp hids'.symm
    rw [List.map_cons, List.map_cons, h.sight_eq hid.symm, ht.sight_eq hid'.symm,
      ih hrest.symm hrest'.symm]

/-- A call numbers its tokens and returns its reply to their numbers. -/
theorem next_spec (h : Numbers model oov o met s) (call : Call)
    (hroom : (met ++ call.tokens o).eraseDups.length < maxId) :
    ∃ ids s', s.next call = (.ok (call.reply o s'.scorer ids), s') ∧
      Numbers model oov o (met ++ call.tokens o) s' ∧
      (call.tokens o).map (s'.ids[·]?) = ids.map some := by
  by_cases hcall : call.Scores
  · obtain ⟨ids, s', hids, h', hwords⟩ := h.run_idsOf (call.tokens o) hroom
    have hnext := next_of_idsOf hcall (h.options_eq ▸ hids)
    rw [h.options_eq] at hnext
    exact ⟨ids, s', hnext, h', hwords⟩
  · cases call with
    | id token =>
      obtain ⟨id, s', hid, h', hknown⟩ := h.run_idOf token hroom
      exact ⟨[id], s', run_bind_ok hid, h', congrArg (fun known => [known]) hknown⟩
    | _ => exact absurd trivial hcall

end Numbers

/-- After calls the tokens of all of them are numbered. -/
theorem numbers_stateAfter (served : IdMap) {calls : List Call}
    (hfew : (calls.flatMap (Call.tokens o)).eraseDups.length < maxId) :
    Numbers model oov o (calls.flatMap (Call.tokens o))
      (Run.stateAfter next (ofScorer ⟨model, oov, served⟩ o) calls) := by
  induction calls using List.reverseRecOn with
  | nil => exact numbers_ofScorer served
  | append_singleton calls call ih =>
    rw [List.flatMap_append, List.flatMap_singleton] at hfew ⊢
    obtain ⟨ids, s', hnext, h', -⟩ := (ih <| Nat.lt_of_le_of_lt
      (length_eraseDups_le (List.subset_append_left _ _)) hfew).next_spec call hfew
    rw [Run.stateAfter_concat, hnext]
    exact h'

/-- Whatever was called before, and whatever was registered with the model before that: as long as
all calls together have fewer different tokens than there are numbers, a call that asks for scores
returns what it returns as the first call of a scorer on the model. The different tokens of all
calls have the numbers 1, 2 and so on in the order of first sight, which is what calls for a number
return; a call leaves the numbers given before it, and each number leads to the model's word for its
token. -/
theorem replies_eq_fresh (model : LanguageModel) (oov : OovScoring) (o : SentenceOptions)
    (served : IdMap) (earlier : List Call) (call : Call)
    (hfew : ((earlier ++ [call]).flatMap (Call.tokens o)).eraseDups.length < maxId) :
    let fresh := ofScorer (.ofModel model oov) o
    let used := Run.stateAfter next (ofScorer ⟨model, oov, served⟩ o) earlier
    let tokens := ((earlier ++ [call]).flatMap (Call.tokens o)).eraseDups
    (call.Scores → ∃ reply, (used.next call).1 = .ok reply ∧ (fresh.next call).1 = .ok reply) ∧
      (∀ token, call = .id token →
        ∃ k : Nat, tokens[k]? = some token ∧ (used.next call).1 = .ok (.id (k + 1))) ∧
      (∀ (token : String) (id : ExternalId), (used.next call).2.ids[token]? = some id ↔
        ∃ k : Nat, tokens[k]? = some token ∧ id = k + 1) ∧
      (∀ (token : String) (id : ExternalId), used.ids[token]? = some id →
        (used.next call).2.ids[token]? = some id) ∧
      ∀ (token : String) (id : ExternalId), (used.next call).2.ids[token]? = some id →
        (used.next call).2.scorer.ids.wordOf id = model.vocabulary.idOf token := by
  intro fresh used tokens
  have htokens : (earlier ++ [call]).flatMap (Call.tokens o) =
      earlier.flatMap (Call.tokens o) ++ call.tokens o := by
    rw [List.flatMap_append, List.flatMap_singleton]
  rw [htokens] at hfew
  have hused : Numbers model oov o (earlier.flatMap (Call.tokens o)) used :=
    numbers_stateAfter served <| Nat.lt_of_le_of_lt
      (length_eraseDups_le (List.subset_append_left _ _)) hfew
  have hfresh : Numbers model oov o [] fresh := numbers_ofScorer .empty
  obtain ⟨ids, s', hnext, h', hids⟩ := hused.next_spec call hfew
  obtain ⟨ids', t', hnext', ht', hids'⟩ := hfresh.next_spec call <| Nat.lt_of_le_of_lt
    (length_eraseDups_le (List.subset_append_right _ _)) hfew
  rw [hnext, hnext', show tokens = _ from congrArg List.eraseDups htokens]
  refine ⟨fun hcall => ⟨_, rfl, ?_⟩, ?_, fun _ _ => h'.ids_iff, ?_, ?_⟩
  · rw [reply_congr hcall o (h'.seeAlike ht' hids hids')]
  · rintro token rfl
    obtain ⟨id, rfl, hid⟩ := List.map_eq_singleton_iff.mp hids.symm
    obtain ⟨k, hk, rfl⟩ := h'.ids_iff.mp hid.symm
    exact ⟨k, hk, rfl⟩
  · intro token id hid
    exact hused.keeps h' hid
  · intro token id hid
    exact h'.leads hid

/-- A scorer on the small trie of order 4 that has scored a sentence and numbered an unknown token,
then asked for the scores of a shorter sentence. -/
theorem replies_eq_fresh_sample :
    let model := (Model.ofArpa 8 Arpa.sampleArpa : Model Kind.trie.Index).toLanguageModel
    let o : SentenceOptions := ⟨false, false, "_", true⟩
    let oov : OovScoring := ⟨⟨0xC1200000⟩, .reservedIdOnly⟩
    let earlier : List Call := [.sentenceLogProb ["a", "b", "a"], .id "c"]
    let used := Run.stateAfter next (ofScorer ⟨model, oov, .empty⟩ o) earlier
    let fresh := ofScorer (.ofModel model oov) o
    ((earlier ++ [Call.perplexity ["b", "c"]]).flatMap (Call.tokens o)).eraseDups.length < maxId ∧
      ∃ reply, (used.next (.perplexity ["b", "c"])).1 = .ok reply ∧
        (fresh.next (.perplexity ["b", "c"])).1 = .ok reply := by
  intro model o oov earlier used fresh
  have hfew : ((earlier ++ [Call.perplexity ["b", "c"]]).flatMap
      (Call.tokens o)).eraseDups.length < maxId := by decide +kernel
  exact ⟨hfew, (replies_eq_fresh model oov o .empty earlier _ hfew).1 trivial⟩

end BackoffLM.SentenceScorer

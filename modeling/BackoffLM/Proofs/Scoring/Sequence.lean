import BackoffLM.Proofs.IdMap
import BackoffLM.Proofs.Loaded
import BackoffLM.Proofs.Scoring.Incremental
import BackoffLM.Proofs.Sums
import BackoffLM.Scorer

/-!
# Scoring a sequence is scoring its words one by one

A `Scorer` adds the scores of a sequence up while two states take turns, from the state before any
word or from that after a fixed context. `probString_sameNumber` says that the total is the sum of
what `prob` gives to every front of the sequence that ends at a scored number, each with its own
context of at most `maxOrder - 1` numbers. The states taking turns are one state after another
(`addScores_eq`); that state is the context state of all numbers before, whether they count as
unknown or not (`scoresFrom_contextState`); and the context that `prob` cuts off is beyond what the
model can use (`contextState_context`).
-/

namespace BackoffLM

open NgramIndex

namespace Scorer

/-- The scores of numbers one after another, from a state on. -/
def scoresFrom (s : Scorer) : State → List ExternalId → List LogProb
  | _, [] => []
  | state, id :: ids =>
    let (score, next) := s.model.score state (s.ids.wordOf id)
    s.cost id score.logProb :: scoresFrom s next ids

/-- What `prob` gives to the numbers of a list from a place on, each after all numbers before it. -/
def probsFrom (s : Scorer) (ids : List ExternalId) (start : Nat) : List LogProb :=
  (List.range' start (ids.length - start)).map fun i => s.prob (ids.take (i + 1))

variable (s : Scorer)

/-- There is nothing to score from the end of a list on. -/
theorem probString_of_length_le {ids : List ExternalId} {start : Nat} (h : ids.length ≤ start) :
    s.probString ids start = .zero ∧ s.probsFrom ids start = [] := by
  constructor
  · unfold probString
    rw [List.drop_of_length_le h]
  · rw [probsFrom, Nat.sub_eq_zero_of_le h, List.range'_zero, List.map_nil]

/-- States that take turns are one state after another. -/
theorem addScores_eq (total : LogProb) (state : State) (ids : List ExternalId) :
    s.addScores total state ids = (s.scoresFrom state ids).foldl (· + ·) total := by
  fun_induction addScores s total state ids with
  | case1 total state => rfl
  | case2 total state id score next h => rw [scoresFrom, h]; rfl
  | case3 total state first second ids score other h total' score' state' h' ih =>
    rw [ih, scoresFrom, h]
    dsimp only
    rw [scoresFrom, h']
    rfl

/-- The score of a number after others is what counts for it of the model's. -/
theorem prob_append_singleton (before : List ExternalId) (id : ExternalId) :
    s.prob (before ++ [id]) = (s.scoreAfter before id).1 := by
  unfold prob
  rw [List.getLast?_append, List.getLast?_singleton, Option.some_or, List.dropLast_concat]
  dsimp only
  -- A number that counts as unknown has the fixed cost either way.
  unfold scoreAfter cost
  split <;> rfl

/-- After a number the state is the context state of all numbers with it. -/
theorem score_reverse {S : Type} [NgramIndex S] {index : S} {bound : Nat}
    (hclosed : ContextClosed index bound) (hids : ∀ id, s.ids.wordOf id < bound)
    (before : List ExternalId) (id : ExternalId) :
    (score index (contextState index (before.reverse.map s.ids.wordOf)) (s.ids.wordOf id)).2 =
      contextState index ((before ++ [id]).reverse.map s.ids.wordOf) := by
  have hhistory : ∀ w ∈ before.reverse.map s.ids.wordOf, w < bound := by
    intro w hw
    obtain ⟨other, -, rfl⟩ := List.mem_map.mp hw
    exact hids other
  rw [score_contextState hclosed (hids id) hhistory, List.reverse_append, List.reverse_singleton,
    List.singleton_append, List.map_cons]

section Loaded

variable {s} {kind : Kind} {m : Model kind.Index} (hm : m.Loaded) (hs : s.model = m.toLanguageModel)
include hm

/-- The context that is cut off is beyond what the model can use. -/
theorem contextState_context (before : List ExternalId) :
    contextState m.index (s.context before) =
      contextState m.index (before.reverse.map s.ids.wordOf) := by
  obtain ⟨-, hmax⟩ := hm.order_bounds
  have htake : (s.context before).take (contextLimit m.index) =
      (before.reverse.map s.ids.wordOf).take (contextLimit m.index) := by
    unfold context contextLimit
    rw [← List.map_take, ← List.map_take, List.take_take, Nat.min_eq_left (by omega)]
  unfold contextState
  rw [htake]

include hs

/-- A number is scored in the context state of the numbers before it. -/
theorem scoreAfter_eq (before : List ExternalId) (id : ExternalId) :
    s.scoreAfter before id =
      (s.cost id (score m.index (contextState m.index (before.reverse.map s.ids.wordOf))
        (s.ids.wordOf id)).1.logProb,
        (score m.index (contextState m.index (before.reverse.map s.ids.wordOf))
          (s.ids.wordOf id)).2) := by
  unfold scoreAfter
  rw [hs, ← contextState_context hm]
  rfl

/-- A number has the same score after numbers that end in the same ones, as many as a score can
use. -/
theorem prob_append_congr {before others : List ExternalId}
    (h : before.reverse.take (contextLimit m.index) = others.reverse.take (contextLimit m.index))
    (id : ExternalId) : s.prob (before ++ [id]) = s.prob (others ++ [id]) := by
  have hcontext : contextState m.index (before.reverse.map s.ids.wordOf) =
      contextState m.index (others.reverse.map s.ids.wordOf) := by
    unfold contextState
    rw [← List.map_take, ← List.map_take, h]
  rw [prob_append_singleton, prob_append_singleton, scoreAfter_eq hm hs, scoreAfter_eq hm hs,
    hcontext]

variable {bound : Nat} (hclosed : ContextClosed m.index bound)
  (hids : ∀ id, s.ids.wordOf id < bound)
include hclosed hids

/-- From the context state of some numbers on, the scores of others are those that they have after
all numbers before them. -/
theorem scoresFrom_contextState (before ids : List ExternalId) :
    s.scoresFrom (contextState m.index (before.reverse.map s.ids.wordOf)) ids =
      s.probsFrom (before ++ ids) before.length := by
  induction ids generalizing before with
  | nil => simp [scoresFrom, probsFrom]
  | cons id ids ih =>
    have hfront : (before ++ id :: ids).take (before.length + 1) = before ++ [id] := by
      rw [List.take_length_add_append, List.take_succ_cons, List.take_zero]
    have hlength : (before ++ id :: ids).length - before.length = ids.length + 1 := by
      rw [List.length_append, List.length_cons]
      omega
    have hnext := s.score_reverse hclosed hids before id
    have hprob := s.prob_append_singleton before id
    rw [scoreAfter_eq hm hs] at hprob
    -- The first score is that of `before` and the number, and the others go on from both.
    have hrest := ih (before ++ [id])
    have hremaining : (before ++ [id] ++ ids).length - (before ++ [id]).length = ids.length := by
      rw [List.length_append]
      omega
    rw [probsFrom, hremaining, List.append_assoc, List.singleton_append, List.length_append,
      List.length_singleton] at hrest
    rw [probsFrom, hlength, List.range'_succ, List.map_cons, hfront, hprob, scoresFrom, hs]
    show _ :: s.scoresFrom (score m.index _ _).2 ids = _
    rw [hnext, hrest]
    rfl

/-- The sum of a sequence from a place on is, as a number, that of the scores of its numbers, each
after all numbers before it. -/
theorem probString_eq_sum (ids : List ExternalId) {start : Nat} (hstart : start < ids.length) :
    (s.probString ids start).SameNumber ((s.probsFrom ids start).foldl (· + ·) .zero) := by
  have hfrom := scoresFrom_contextState hm hs hclosed hids (ids.take start) (ids.drop start)
  rw [List.take_append_drop, List.length_take, Nat.min_eq_left (by omega)] at hfrom
  obtain ⟨id, rest, hdrop⟩ : ∃ id rest, ids.drop start = id :: rest :=
    List.exists_cons_of_length_pos (by rw [List.length_drop]; omega)
  rw [hdrop] at hfrom
  unfold probString
  rw [hdrop]
  cases start with
  | zero =>
    -- From the state before any word, both sums start from zero.
    have hnull : s.model.nullState =
        contextState m.index ((ids.take 0).reverse.map s.ids.wordOf) := by
      rw [hs, List.take_zero]
      exact (contextState_of_take_eq_nil m.index List.take_nil).symm
    show (s.addScores .zero s.model.nullState (id :: rest)).SameNumber _
    rw [addScores_eq, hnull, hfrom]
  | succ start =>
    -- The first score stands alone, and the sum goes on from it.
    show (s.addScores (s.scoreAfter (ids.take (start + 1)) id).1
      (s.scoreAfter (ids.take (start + 1)) id).2 rest).SameNumber _
    rw [addScores_eq, ← hfrom, scoresFrom, scoreAfter_eq hm hs, hs]
    exact LogProb.foldl_cons_sameNumber _ _

end Loaded

/-- In every loaded model that stores with each n-gram the n-gram without its last word, the log
probability of a sequence from a place on is, as a number, the sum from left to right of those that
its numbers have one by one, each after all numbers before it. -/
theorem probString_sameNumber {kind : Kind} {m : Model kind.Index} (hm : m.Loaded)
    (hclosed : LeftClosed m.index wordBound) {s : Scorer} (hs : s.model = m.toLanguageModel)
    (hids : ∀ id, s.ids.wordOf id < wordBound) (ids : List ExternalId) {start : Nat}
    (hstart : start < ids.length) :
    (s.probString ids start).SameNumber
      (((List.range' start (ids.length - start)).map fun i => s.prob (ids.take (i + 1))).foldl
        (· + ·) .zero) :=
  probString_eq_sum hm hs (hclosed.closedTo _) hids ids hstart

/-- The small trie with two words registered, where unknown words cost -10. -/
def sampleScorer : Scorer where
  model := (Model.ofArpa 8 Arpa.sampleArpa : Model Kind.trie.Index).toLanguageModel
  oov := ⟨⟨0xC1200000⟩, .remappedUnknown⟩
  ids := IdMap.after [(1, 2), (2, 3)]

/-- Its numbers lead to words. -/
theorem wordOf_sampleScorer (id : ExternalId) : sampleScorer.ids.wordOf id < wordBound := by
  have hids : sampleScorer.ids = IdMap.after ([] ++ [(1, 2)] ++ [(2, 3)]) := rfl
  rw [hids, (IdMap.remembers_after _).wordOf_eq, IdMap.lastWord?_concat, IdMap.lastWord?_concat,
    ← IdMap.remembers_empty.registered?_eq, IdMap.registered?_empty]
  split
  · decide
  · split <;> decide

/-- The words `b a`, a negative number, the reserved one and `a b` after a word of context. -/
theorem probString_sameNumber_sample :
    (Model.ofArpa 8 Arpa.sampleArpa : Model Kind.trie.Index).Loaded ∧
      LeftClosed (Model.ofArpa 8 Arpa.sampleArpa : Model Kind.trie.Index).index wordBound ∧
      (sampleScorer.probString [1, 2, 1, -7, 0, 1, 2] 1).SameNumber
        (((List.range' 1 6).map fun i =>
          sampleScorer.prob ([1, 2, 1, -7, 0, 1, 2].take (i + 1))).foldl (· + ·) .zero) := by
  have hloaded : (Model.ofArpa 8 Arpa.sampleArpa : Model Kind.trie.Index).Loaded :=
    .arpa 8 Arpa.ofBytes_sample
  have hclosed : LeftClosed (Model.ofArpa 8 Arpa.sampleArpa : Model Kind.trie.Index).index
      wordBound :=
    Trie.leftClosed_ofArpa (Arpa.ofBytes_wellFormed Arpa.ofBytes_sample) (by decide) 8 wordBound
  exact ⟨hloaded, hclosed, probString_sameNumber hloaded hclosed rfl wordOf_sampleScorer
    [1, 2, 1, -7, 0, 1, 2] (by decide)⟩

end Scorer

end BackoffLM

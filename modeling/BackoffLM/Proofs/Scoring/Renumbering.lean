import BackoffLM.Proofs.Scoring.Sequence

/-!
# Scores do not depend on the numbers of words

Of a caller's number a scorer sees two things: the word that it leads to, and whether it counts as
unknown (`Scorer.sight`). Two scorers of one model that see the same in two lists of numbers, one by
one, give them the same scores (`SeeAlike.prob_eq`, `SeeAlike.probString_eq`), whatever the numbers
are and whatever else is registered.
-/

namespace BackoffLM.Scorer

/-- What a scorer sees of a number: the word that it leads to, and whether it counts as unknown. -/
def sight (s : Scorer) (id : ExternalId) : WordId × Bool := (s.ids.wordOf id, s.isFake id)

/-- Two scorers of one model and with one way of scoring unknown words see the same in two lists of
numbers. -/
structure SeeAlike (s t : Scorer) (ids others : List ExternalId) : Prop where
  model_eq : s.model = t.model
  oov_eq : s.oov = t.oov
  sights_eq : ids.map s.sight = others.map t.sight

namespace SeeAlike

variable {s t : Scorer} {ids others : List ExternalId} (h : SeeAlike s t ids others)
include h

theorem length_eq : ids.length = others.length := by
  have hlength := congrArg List.length h.sights_eq
  rwa [List.length_map, List.length_map] at hlength

theorem take (n : Nat) : SeeAlike s t (ids.take n) (others.take n) :=
  ⟨h.model_eq, h.oov_eq, by rw [List.map_take, List.map_take, h.sights_eq]⟩

theorem drop (n : Nat) : SeeAlike s t (ids.drop n) (others.drop n) :=
  ⟨h.model_eq, h.oov_eq, by rw [List.map_drop, List.map_drop, h.sights_eq]⟩

omit h

/-- A list that looks like one with a first number has a first number that looks like it. -/
theorem exists_cons {id : ExternalId} (h : SeeAlike s t (id :: ids) others) :
    ∃ other rest, others = other :: rest ∧ s.sight id = t.sight other ∧ SeeAlike s t ids rest := by
  obtain ⟨other, rest, rfl, hother, hrest⟩ := List.map_eq_cons_iff.mp h.sights_eq.symm
  exact ⟨other, rest, rfl, hother.symm, h.model_eq, h.oov_eq, hrest.symm⟩

/-- A list that looks like one with a last number has a last number that looks like it. -/
theorem exists_concat {id : ExternalId} (h : SeeAlike s t (ids ++ [id]) others) :
    ∃ front other, others = front ++ [other] ∧ s.sight id = t.sight other ∧
      SeeAlike s t ids front := by
  have hsights := h.sights_eq.symm
  rw [List.map_append] at hsights
  obtain ⟨front, last, rfl, hfront, hlast⟩ := List.map_eq_append_iff.mp hsights
  obtain ⟨other, rfl, hother⟩ := List.map_eq_singleton_iff.mp hlast
  exact ⟨front, other, rfl, hother.symm, h.model_eq, h.oov_eq, hfront.symm⟩

include h

/-- The same score counts for numbers that look alike. -/
theorem cost_eq {id other : ExternalId} (hid : s.sight id = t.sight other) (score : LogProb) :
    s.cost id score = t.cost other score := by
  have hfake : s.isFake id = t.isFake other := congrArg Prod.snd hid
  rw [cost, cost, hfake, h.oov_eq]

/-- Contexts that look alike are the same words. -/
theorem context_eq : s.context ids = t.context others := by
  have hwords := congrArg (fun sights => (sights.reverse.take (maxOrder - 1)).map Prod.fst)
    h.sights_eq
  simp only [← List.map_reverse, ← List.map_take, List.map_map] at hwords
  exact hwords

/-- Numbers that look alike have the same score after contexts that do, and leave the same state. -/
theorem scoreAfter_eq {id other : ExternalId} (hid : s.sight id = t.sight other) :
    s.scoreAfter ids id = t.scoreAfter others other := by
  have hword : s.ids.wordOf id = t.ids.wordOf other := congrArg Prod.fst hid
  unfold scoreAfter
  rw [h.model_eq, h.context_eq, hword]
  dsimp only
  rw [h.cost_eq hid]

/-- From one state lists that look alike have the same scores. -/
theorem scoresFrom_eq (state : State) : s.scoresFrom state ids = t.scoresFrom state others := by
  induction ids generalizing others state with
  | nil =>
    obtain rfl := List.eq_nil_of_length_eq_zero h.length_eq.symm
    rfl
  | cons id ids ih =>
    obtain ⟨other, rest, rfl, hid, hrest⟩ := h.exists_cons
    have hword : s.ids.wordOf id = t.ids.wordOf other := congrArg Prod.fst hid
    rw [scoresFrom, scoresFrom, h.model_eq, hword]
    dsimp only
    rw [h.cost_eq hid, ih hrest]

/-- Lists that look alike have the same log probability of their last number. -/
theorem prob_eq : s.prob ids = t.prob others := by
  rcases List.eq_nil_or_concat' ids with rfl | ⟨before, id, rfl⟩
  · obtain rfl := List.eq_nil_of_length_eq_zero h.length_eq.symm
    rfl
  · obtain ⟨front, other, rfl, hid, hfront⟩ := h.exists_concat
    rw [prob_append_singleton, prob_append_singleton, hfront.scoreAfter_eq hid]

/-- Lists that look alike have the same sum from a place on. -/
theorem probString_eq (start : Nat) : s.probString ids start = t.probString others start := by
  cases hdrop : ids.drop start with
  | nil =>
    have hlength := List.drop_eq_nil_iff.mp hdrop
    rw [(probString_of_length_le s hlength).1,
      (probString_of_length_le t (h.length_eq ▸ hlength)).1]
  | cons id ids' =>
    have hrest := h.drop start
    rw [hdrop] at hrest
    obtain ⟨other, rest, hdrop', hid, hrest'⟩ := hrest.exists_cons
    unfold probString
    rw [hdrop, hdrop']
    cases start with
    | zero =>
      show s.addScores .zero s.model.nullState (id :: ids') =
        t.addScores .zero t.model.nullState (other :: rest)
      rw [hdrop'] at hrest
      rw [addScores_eq, addScores_eq, h.model_eq, hrest.scoresFrom_eq]
    | succ start =>
      show s.addScores (s.scoreAfter (ids.take (start + 1)) id).1
          (s.scoreAfter (ids.take (start + 1)) id).2 ids' =
        t.addScores (t.scoreAfter (others.take (start + 1)) other).1
          (t.scoreAfter (others.take (start + 1)) other).2 rest
      rw [addScores_eq, addScores_eq, (h.take (start + 1)).scoreAfter_eq hid,
        hrest'.scoresFrom_eq]

end SeeAlike

end BackoffLM.Scorer

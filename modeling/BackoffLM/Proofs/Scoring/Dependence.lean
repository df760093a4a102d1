import BackoffLM.Proofs.IdMap
import BackoffLM.Proofs.Scoring.Renumbering
import BackoffLM.Proofs.Scoring.Sequence

/-!
# What scores depend on

The score of the last of some numbers depends only on as many numbers as the order of the model is:
the numbers before these may be any (`prob_eq_of_suffix`). And scores depend on callers' numbers
only through the words that they lead to, and on which of them are the reserved number where only
that one counts as unknown (`scores_eq_of_leadsAlike`).
-/

namespace BackoffLM.Scorer

open NgramIndex

/-! ## The last numbers -/

/-- In every loaded model, whatever is registered and however unknown words are scored, lists that
end in the same numbers, as many as the order, have the same log probability of their last
number. -/
theorem prob_eq_of_suffix {kind : Kind} {m : Model kind.Index} (hm : m.Loaded) {s : Scorer}
    (hs : s.model = m.toLanguageModel) {last ids others : List ExternalId}
    (hlast : last.length = s.model.order) (h : last <:+ ids) (h' : last <:+ others) :
    s.prob ids = s.prob others := by
  obtain ⟨hpos, -⟩ := hm.order_bounds
  have horder : s.model.order = contextLimit m.index + 1 := by
    rw [hs]
    show order m.index = order m.index - 1 + 1
    omega
  obtain ⟨context, id, rfl⟩ : ∃ context id, last = context ++ [id] :=
    (List.eq_nil_or_concat' last).resolve_left fun hnil => by
      rw [hnil, List.length_nil] at hlast
      omega
  have hlength : context.length = contextLimit m.index := by
    rw [List.length_append, List.length_singleton] at hlast
    omega
  -- Of what is before the last number, a score can use the numbers that both lists have.
  have hfront : ∀ front : List ExternalId,
      (front ++ context).reverse.take (contextLimit m.index) = context.reverse := by
    intro front
    rw [List.reverse_append, ← hlength, ← List.length_reverse, List.take_left]
  obtain ⟨front, rfl⟩ := h
  obtain ⟨front', rfl⟩ := h'
  rw [← List.append_assoc, ← List.append_assoc]
  exact prob_append_congr hm hs ((hfront front).trans (hfront front').symm) id

/-- Two lists that end in the same four numbers, in the small trie of order 4. -/
theorem prob_eq_of_suffix_sample :
    (Model.ofArpa 8 Arpa.sampleArpa : Model Kind.trie.Index).Loaded ∧
      [2, 1, -7, 1].length = sampleScorer.model.order ∧
      sampleScorer.prob [1, 0, 2, 1, -7, 1] = sampleScorer.prob [2, 2, 1, -7, 1] := by
  have hloaded : (Model.ofArpa 8 Arpa.sampleArpa : Model Kind.trie.Index).Loaded :=
    .arpa 8 Arpa.ofBytes_sample
  have horder : [2, 1, -7, 1].length = sampleScorer.model.order :=
    (Model.order_ofArpa_index .trie 8 Arpa.sampleArpa).symm
  exact ⟨hloaded, horder, prob_eq_of_suffix hloaded rfl horder ⟨[1, 0], rfl⟩ ⟨[2], rfl⟩⟩

/-! ## Callers' numbers -/

/-- Two numbers lead to one word. Where only the reserved number counts as unknown, both are that
number or neither is. -/
structure LeadsAlike (s : Scorer) (id other : ExternalId) : Prop where
  word_eq : s.ids.wordOf id = s.ids.wordOf other
  reserved_iff : s.oov.policy = .reservedIdOnly → (id = reservedId ↔ other = reservedId)

variable {s : Scorer}

/-- Numbers that lead to one word look alike. -/
theorem LeadsAlike.sight_eq {id other : ExternalId} (h : s.LeadsAlike id other) :
    s.sight id = s.sight other := by
  have hfake : s.isFake id = s.isFake other := by
    unfold isFake OovScoring.isFake
    rw [h.word_eq]
    cases hpolicy : s.oov.policy with
    | remappedUnknown => rfl
    | reservedIdOnly =>
      rw [Bool.eq_iff_iff, beq_iff_eq, beq_iff_eq]
      exact h.reserved_iff hpolicy
  rw [sight, sight, h.word_eq, hfake]

/-- Lists of numbers that lead to the same words one by one look alike. -/
theorem seeAlike_of_leadsAlike {ids others : List ExternalId}
    (h : List.Forall₂ s.LeadsAlike ids others) : SeeAlike s s ids others where
  model_eq := rfl
  oov_eq := rfl
  sights_eq := by
    induction h with
    | nil => rfl
    | cons hid _ ih => rw [List.map_cons, List.map_cons, hid.sight_eq, ih]

/-- Whatever was registered, lists of as many numbers have the same scores if their numbers lead to
the same words one by one, and, where only the reserved number counts as unknown, hold that number
at the same places. Numbers that are not registered, or not positive, or past the greatest, or last
registered for the unknown word, all lead to that. -/
theorem scores_eq_of_leadsAlike {history : List IdMap.Registration}
    (hids : s.ids = IdMap.after history) {ids others : List ExternalId}
    (h : List.Forall₂ s.LeadsAlike ids others) :
    (∀ id, (s.ids.isRegistered id = false ∨ id ≤ 0 ∨ (s.ids.size : Int) ≤ id ∨
        IdMap.lastWord? history id = some unknownId) → s.ids.wordOf id = unknownId) ∧
      s.prob ids = s.prob others ∧
      ∀ start, s.probString ids start = s.probString others start := by
  have hremembers : s.ids.Remembers history := hids ▸ IdMap.remembers_after history
  have halike := seeAlike_of_leadsAlike h
  exact ⟨fun id => hremembers.wordOf_eq_unknownId, halike.prob_eq, halike.probString_eq⟩

/-- Two words and the unknown word, registered one after another. -/
def sampleHistory : List IdMap.Registration := [(1, 2), (2, 3), (3, unknownId)]

/-- A scorer of the small trie for which only the reserved number counts as unknown. -/
def reservedScorer : Scorer where
  model := sampleScorer.model
  oov := ⟨⟨0xC1200000⟩, .reservedIdOnly⟩
  ids := IdMap.after sampleHistory

/-- For it a negative number, one past the greatest and one registered for the unknown word are
alike, and the reserved number is like none of them. -/
theorem scores_eq_of_leadsAlike_sample :
    reservedScorer.ids = IdMap.after sampleHistory ∧
      List.Forall₂ reservedScorer.LeadsAlike [1, -7, 0, 3, 2] [1, 3, 0, 900, 2] ∧
      reservedScorer.prob [1, -7, 0, 3, 2] = reservedScorer.prob [1, 3, 0, 900, 2] ∧
      reservedScorer.probString [1, -7, 0, 3, 2] 1 =
        reservedScorer.probString [1, 3, 0, 900, 2] 1 := by
  have halike : ∀ {id other : ExternalId},
      (IdMap.lastWord? sampleHistory id).getD unknownId =
        (IdMap.lastWord? sampleHistory other).getD unknownId →
      (id = reservedId ↔ other = reservedId) → reservedScorer.LeadsAlike id other := by
    intro id other hword hreserved
    refine ⟨?_, fun _ => hreserved⟩
    have hremembers := IdMap.remembers_after sampleHistory
    exact (hremembers.wordOf_eq id).trans (hword.trans (hremembers.wordOf_eq other).symm)
  have hlists : List.Forall₂ reservedScorer.LeadsAlike [1, -7, 0, 3, 2] [1, 3, 0, 900, 2] :=
    .cons (halike (by decide) (by decide)) <| .cons (halike (by decide) (by decide)) <|
      .cons (halike (by decide) (by decide)) <| .cons (halike (by decide) (by decide)) <|
        .cons (halike (by decide) (by decide)) .nil
  obtain ⟨-, hprob, hstring⟩ := scores_eq_of_leadsAlike (s := reservedScorer) rfl hlists
  exact ⟨rfl, hlists, hprob, hstring 1⟩

end BackoffLM.Scorer

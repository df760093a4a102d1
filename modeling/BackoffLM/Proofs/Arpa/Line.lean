import BackoffLM.Arpa.Reader
import Mathlib.Data.List.Basic

/-!
# What a line of an n-gram section says

The format of such a line is a log probability, as many words as the order, and at most one more
field, which is a backoff weight where backoffs are read and is passed over at the highest order
(`TrailingField`). Every line that is accepted has it (`exists_fields_of_readNgram`), and every line
that has it is accepted (`readNgram_of_fields`).
-/

namespace BackoffLM.Arpa

/-- What the fields after the words say about the backoff. -/
inductive TrailingField : (withBackoff : Bool) → List (List Char) → LogProb → Prop
  | omitted (withBackoff : Bool) : TrailingField withBackoff [] .zero
  | read {field : List Char} {backoff : LogProb} :
    LogProb.read? field = some backoff → TrailingField true [field] backoff
  | passedOver (field : List Char) : TrailingField false [field] .zero

/-- Where a field is passed over there is no backoff. -/
theorem TrailingField.withoutBackoff {withBackoff : Bool} {extra : List (List Char)}
    {backoff : LogProb} (h : TrailingField withBackoff extra backoff) :
    TrailingField false extra .zero := by
  cases h with
  | omitted => exact .omitted false
  | read _ => exact .passedOver _
  | passedOver field => exact .passedOver field

/-- At most one field follows the words. -/
theorem TrailingField.length_le {withBackoff : Bool} {extra : List (List Char)} {backoff : LogProb}
    (h : TrailingField withBackoff extra backoff) : extra.length ≤ 1 := by
  cases h with
  | omitted => exact Nat.zero_le 1
  | read _ => exact Nat.le_refl 1
  | passedOver _ => exact Nat.le_refl 1

variable {order : Nat} {withBackoff : Bool} {text : List Char} {words : List String}
  {weights : Weights}

/-- A line that is accepted is a log probability, words, and what may follow them. -/
theorem exists_fields_of_readNgram (h : readNgram order withBackoff text = .ok (words, weights)) :
    ∃ probability fields extra, Text.fields text = probability :: (fields ++ extra) ∧
      fields.length = order ∧ words = fields.map String.ofList ∧
      LogProb.read? probability = some weights.prob ∧
      TrailingField withBackoff extra weights.backoff := by
  unfold readNgram at h
  cases hfields : Text.fields text with
  | nil =>
    rw [hfields] at h
    simp at h
  | cons probability others =>
    rw [hfields] at h
    dsimp only at h
    split at h
    · simp at h
    · rename_i hcount
      have hlength : (others.take order).length = order := by
        rw [List.length_take]
        omega
      refine ⟨probability, others.take order, others.drop order, ?_, hlength, ?_⟩
      · rw [List.take_append_drop]
      · cases hprob : LogProb.read? probability with
        | none =>
          rw [hprob] at h
          simp at h
        | some prob =>
          rw [hprob] at h
          dsimp only at h
          cases hextra : others.drop order with
          | nil =>
            rw [hextra] at h
            obtain ⟨rfl, rfl⟩ := Prod.mk.inj (Except.ok.inj h)
            exact ⟨rfl, rfl, .omitted withBackoff⟩
          | cons field rest =>
            -- There is no second field after the words.
            have hrest : rest = [] := by
              have hlong := congrArg List.length hextra
              rw [List.length_cons] at hlong
              exact List.eq_nil_of_length_eq_zero (by omega)
            rw [hextra] at h
            rw [hrest]
            cases withBackoff with
            | false =>
              obtain ⟨rfl, rfl⟩ := Prod.mk.inj (Except.ok.inj h)
              exact ⟨rfl, rfl, .passedOver field⟩
            | true =>
              dsimp only at h
              cases hbackoff : LogProb.read? field with
              | none =>
                rw [hbackoff] at h
                simp at h
              | some backoff =>
                rw [hbackoff] at h
                obtain ⟨rfl, rfl⟩ := Prod.mk.inj (Except.ok.inj h)
                exact ⟨rfl, rfl, .read hbackoff⟩

/-- A log probability, as many words as the order, and at most one more field make a line. -/
theorem readNgram_of_fields {probability : List Char} {fields extra : List (List Char)}
    (hfields : Text.fields text = probability :: (fields ++ extra))
    (hlength : fields.length = order)
    (hprob : LogProb.read? probability = some weights.prob)
    (hextra : TrailingField withBackoff extra weights.backoff) :
    readNgram order withBackoff text = .ok (fields.map String.ofList, weights) := by
  have htake : (fields ++ extra).take order = fields := List.take_left' hlength
  have hdrop : (fields ++ extra).drop order = extra := List.drop_left' hlength
  have hcount : ¬ ((fields ++ extra).length < order ∨ 1 < extra.length) := by
    have hone := hextra.length_le
    rw [List.length_append]
    omega
  unfold readNgram
  rw [hfields]
  dsimp only
  rw [htake, hdrop, if_neg hcount, hprob]
  obtain ⟨prob, backoff⟩ := weights
  cases hextra with
  | omitted => rfl
  | read hread =>
    dsimp only
    rw [hread]
  | passedOver field => rfl

end BackoffLM.Arpa

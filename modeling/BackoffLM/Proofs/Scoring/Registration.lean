import BackoffLM.Proofs.IdMap
import BackoffLM.Scorer
import Mathlib.Data.List.Induction

/-!
# Registering words with a scorer

A scorer registers a word by putting the model's number for it into its table of callers' numbers
(`run_register`). Nothing else of the scorer changes, and nothing at all when the table refuses the
number (`run_register_cases`). So after several words, each under a positive number of its
own, every one of these numbers leads to the model's number for its word (`wordOf_registerAll`).
-/

namespace BackoffLM.Scorer

open BackoffLM.Action (Atomic run_bind_ok run_get run_within run_bind_eq_ok)

variable {s served : Scorer} {word : String} {id : ExternalId} {memory : Memory}

/-! ## One word -/

/-- What the table does with the model's number of a word, the scorer does. -/
theorem run_register_of {answer : Except CallError Bool} {ids : IdMap}
    (h : (IdMap.register id (s.model.vocabulary.idOf word) memory).run.run s.ids = (answer, ids)) :
    (register word id memory).run.run s = (answer, { s with ids }) := by
  unfold register
  rw [run_bind_ok run_get]
  exact run_within h

/-- A word is registered under a positive number if there is memory for its place. -/
theorem run_register (s : Scorer) (word : String) (h : 0 < id)
    (hroom : s.ids.size < id.toNat + 1 → memory.reserve (id.toNat + 1) = .ok ()) :
    (register word id memory).run.run s =
      (.ok (s.ids.isRegistered id),
        { s with ids := s.ids.insert h (s.model.vocabulary.idOf word) }) :=
  run_register_of (s.ids.run_register _ h hroom)

/-- There are two causes for which a word is refused, which leave the scorer as it was. -/
theorem run_register_cases (s : Scorer) (word : String) (id : ExternalId) (memory : Memory) :
    (¬ 0 < id ∧ (register word id memory).run.run s = (.error (.reservedId id), s)) ∨
    (∃ reason, 0 < id ∧ s.ids.size < id.toNat + 1 ∧
      memory.reserve (id.toNat + 1) = .error reason ∧
      (register word id memory).run.run s = (.error (.noRoom (id.toNat + 1) reason), s)) ∨
    (∃ h : 0 < id, (s.ids.size < id.toNat + 1 → memory.reserve (id.toNat + 1) = .ok ()) ∧
      (register word id memory).run.run s = (.ok (s.ids.isRegistered id),
        { s with ids := s.ids.insert h (s.model.vocabulary.idOf word) })) := by
  rcases s.ids.run_register_cases id (s.model.vocabulary.idOf word) memory with
    ⟨hpos, hids⟩ | ⟨reason, hpos, hsize, hreserve, hids⟩ | ⟨hpos, hroom, hids⟩
  · exact .inl ⟨hpos, run_register_of hids⟩
  · exact .inr (.inl ⟨reason, hpos, hsize, hreserve, run_register_of hids⟩)
  · exact .inr (.inr ⟨hpos, hroom, run_register_of hids⟩)

/-- A scorer that does not register a word stays as it is. -/
theorem atomic_register (word : String) (id : ExternalId) (memory : Memory) :
    Atomic (register word id memory) := by
  intro s s' e h
  rcases s.run_register_cases word id memory with
    ⟨-, hrun⟩ | ⟨reason, -, -, -, hrun⟩ | ⟨hpos, -, hrun⟩
  · cases hrun.symm.trans h
    exact ⟨rfl, fun _ => nofun⟩
  · cases hrun.symm.trans h
    exact ⟨rfl, fun _ => nofun⟩
  · cases hrun.symm.trans h

/-- A word is refused for one of these causes. -/
theorem result_register_eq_error_iff {e : CallError} :
    Action.result (register word id memory) s = .error e ↔
      (¬ 0 < id ∧ e = .reservedId id) ∨
        ∃ reason, 0 < id ∧ s.ids.size < id.toNat + 1 ∧
          memory.reserve (id.toNat + 1) = .error reason ∧ e = .noRoom (id.toNat + 1) reason := by
  rcases s.run_register_cases word id memory with
    ⟨hpos, hrun⟩ | ⟨reason, hpos, hsize, hreserve, hrun⟩ | ⟨hpos, hroom, hrun⟩
  · rw [Action.result_eq hrun]
    simp [hpos, eq_comm, Except.map]
  · rw [Action.result_eq hrun]
    simp [hpos, hsize, hreserve, eq_comm, Except.map]
  · rw [Action.result_eq hrun]
    refine iff_of_false nofun ?_
    rintro (⟨hneg, -⟩ | ⟨reason, -, hsize, hreserve, -⟩)
    · exact hneg hpos
    · cases (hroom hsize).symm.trans hreserve

/-- A word that is registered changes nothing but where its number leads. -/
theorem eq_of_run_register {known : Bool}
    (h : (register word id memory).run.run s = (.ok known, served)) :
    served.model = s.model ∧ served.oov = s.oov ∧ ∀ other, served.ids.wordOf other =
      if id = other then s.model.vocabulary.idOf word else s.ids.wordOf other := by
  rcases s.run_register_cases word id memory with
    ⟨-, hrun⟩ | ⟨_, -, -, -, hrun⟩ | ⟨hpos, -, hrun⟩
  · cases hrun.symm.trans h
  · cases hrun.symm.trans h
  · cases hrun.symm.trans h
    exact ⟨rfl, rfl, IdMap.wordOf_insert s.ids hpos _⟩

/-! ## Several words -/

/-- Registers words under their numbers, one after another. -/
def registerAll (number : String → ExternalId) (memory : Memory) (words : List String) :
    Action Scorer PUnit :=
  forM words fun word => do
    let _ ← register word (number word) memory

variable {number : String → ExternalId} {words : List String}

/-- The first of several words is registered before the others. -/
theorem run_registerAll_cons {known : Bool}
    (h : (register word (number word) memory).run.run s = (.ok known, served)) :
    (registerAll number memory (word :: words)).run.run s =
      (registerAll number memory words).run.run served := by
  rw [registerAll, List.forM_cons]
  exact run_bind_ok (run_bind_ok h)

/-- With memory for every table all words are registered under positive numbers. -/
theorem exists_registerAll (s : Scorer) (hpositive : ∀ word ∈ words, reservedId < number word) :
    ∃ served, (registerAll number .ample words).run.run s = (.ok ⟨⟩, served) := by
  induction words generalizing s with
  | nil => exact ⟨s, rfl⟩
  | cons word words ih =>
    obtain ⟨hword, hwords⟩ := List.forall_mem_cons.1 hpositive
    rw [run_registerAll_cons (s.run_register word hword fun _ => rfl)]
    exact ih _ hwords

/-- Words with different numbers are registered for what they are, in the same model. -/
theorem wordOf_registerAll (h : (registerAll number memory words).run.run s = (.ok ⟨⟩, served))
    (hdistinct : ∀ word ∈ words, ∀ other ∈ words, number word = number other → word = other) :
    served.model = s.model ∧ served.oov = s.oov ∧
      ∀ word ∈ words, served.ids.wordOf (number word) = s.model.vocabulary.idOf word := by
  induction words using List.reverseRecOn generalizing served with
  | nil =>
    cases h
    exact ⟨rfl, rfl, nofun⟩
  | append_singleton words last ih =>
    rw [registerAll, List.forM_append, run_bind_eq_ok] at h
    obtain ⟨⟨⟩, before, hbefore, h⟩ := h
    rw [List.forM_cons, run_bind_eq_ok] at h
    obtain ⟨⟨⟩, after, hlast, hend⟩ := h
    obtain ⟨known, registered, hregister, hdone⟩ := run_bind_eq_ok.1 hlast
    obtain rfl : registered = after := congrArg Prod.snd hdone
    obtain rfl : registered = served := congrArg Prod.snd hend
    have hmem {word : String} (hword : word ∈ words) : word ∈ words ++ [last] :=
      List.mem_append_left _ hword
    obtain ⟨hmodel, hoov, hwords⟩ := ih hbefore fun word hword other hother =>
      hdistinct word (hmem hword) other (hmem hother)
    obtain ⟨hmodel', hoov', hserved⟩ := eq_of_run_register hregister
    refine ⟨hmodel'.trans hmodel, hoov'.trans hoov, fun word hword => ?_⟩
    rw [hserved, hmodel]
    split
    · -- The number is that of the last word, which then is the one asked for.
      rename_i hnumber
      rw [hdistinct last List.mem_concat_self word hword hnumber]
    · rename_i hnumber
      rcases List.mem_append.1 hword with hword | hword
      · exact hwords word hword
      · exact absurd (congrArg number (List.mem_singleton.1 hword)).symm hnumber

end BackoffLM.Scorer

import BackoffLM.Proofs.Action
import BackoffLM.Proofs.Outcome
import BackoffLM.Session

/-!
# How arguments are read

Callers may pass nothing, and bytes that are no text. These lemmas say which arguments a call can
read, and why it cannot read the others: of the words of a context the first bad one is reported.
Nothing here panics.
-/

namespace BackoffLM

variable {e : CallError}

theorem readIds_eq_ok_iff {ids : ForeignArray ExternalId} {numbers : List ExternalId} :
    readIds ids = .ok numbers ↔ ids.read = some numbers := by
  unfold readIds
  cases ids.read with
  | none => simp
  | some read => simp

theorem readIds_eq_error_iff {ids : ForeignArray ExternalId} :
    readIds ids = .error e ↔ ids.read = none ∧ e = .nullIds := by
  unfold readIds
  cases ids.read with
  | none => simp [eq_comm]
  | some read => simp

/-- A context is read when all its words are. -/
theorem readContext_eq_ok_iff {words : List ForeignText} {texts : List String} {i : Nat} :
    readContext i words = .ok texts ↔ words.mapM ForeignText.read = some texts := by
  induction words generalizing i texts with
  | nil => simp [readContext]
  | cons word words ih =>
    rw [readContext, List.mapM_cons]
    cases word.read with
    | none => simp
    | some text => simp [map_eq_ok, ih, Option.bind_eq_some_iff]

/-- The first word of a context that is no text is the one that is reported. -/
theorem readContext_eq_error_iff {words : List ForeignText} {i : Nat} :
    readContext i words = .error e ↔
      ∃ place, words.findIdx? (·.read.isNone) = some place ∧ e = .nullContextWord (i + place) := by
  induction words generalizing i with
  | nil => simp [readContext]
  | cons word words ih =>
    rw [readContext, List.findIdx?_cons]
    cases word.read with
    | none => simp [eq_comm]
    | some text =>
      calc (readContext (i + 1) words).map (text :: ·) = .error e
          ↔ ∃ place, words.findIdx? (·.read.isNone) = some place ∧
              e = .nullContextWord (i + 1 + place) := map_eq_error.trans ih
        _ ↔ ∃ place, (words.findIdx? (·.read.isNone)).map (· + 1) = some place ∧
              e = .nullContextWord (i + place) := by
          simp only [Option.map_eq_some_iff, Nat.add_assoc, Nat.add_comm 1]
          grind

namespace Registry

variable {r : Registry} {loaded : LoadedModel}

/-- A registry with a model refuses empty words. -/
theorem score_eq_error_iff (hloaded : r.loaded = some loaded) {word : String}
    {context : List String} :
    r.score word context = .error e ↔
      (word = "" ∧ e = .emptyWord) ∨
      (word ≠ "" ∧ ∃ place, context.findIdx? String.isEmpty = some place ∧
        e = .emptyContextWord place) := by
  simp only [Registry.score, hloaded]
  by_cases hword : word = ""
  · simp [hword, eq_comm (a := e)]
  · rw [if_neg (by simpa using hword)]
    cases context.findIdx? String.isEmpty with
    | none => simp [hword]
    | some place => simp [hword, eq_comm]

variable {word : ForeignText} {context : ForeignArray ForeignText}

/-- Without a model no word is scored. -/
theorem scoreForeign_of_not_loaded (h : r.loaded = none) :
    r.scoreForeign word context = .error .notLoaded := by
  rw [scoreForeign, isLoaded, h]
  rfl

/-- With one, a word is scored unless it or its context is missing or is no text, or a word is
empty. -/
theorem scoreForeign_eq_error_iff (hloaded : r.loaded = some loaded) :
    r.scoreForeign word context = .error e ↔
      (word.read = none ∧ e = .nullWord) ∨
      ∃ text, word.read = some text ∧
        ((context.read = none ∧ e = .nullContext) ∨
          ∃ words, context.read = some words ∧
            ((∃ place, words.findIdx? (·.read.isNone) = some place ∧ e = .nullContextWord place) ∨
              ∃ texts, words.mapM ForeignText.read = some texts ∧
                ((text = "" ∧ e = .emptyWord) ∨
                  (text ≠ "" ∧ ∃ place, texts.findIdx? String.isEmpty = some place ∧
                    e = .emptyContextWord place)))) := by
  rw [scoreForeign, isLoaded, hloaded]
  cases word.read with
  | none => simp [eq_comm]
  | some text =>
    cases context.read with
    | none => simp [eq_comm]
    | some words =>
      simp [bind_eq_error, readContext_eq_error_iff, readContext_eq_ok_iff,
        score_eq_error_iff hloaded]

/-- A word that is not scored is not so because of a panic. -/
theorem scoreForeign_ne_panicked (h : r.scoreForeign word context = .error e) (message : String) :
    e ≠ .panicked message := by
  cases hloaded : r.loaded with
  | none =>
    cases (scoreForeign_of_not_loaded hloaded).symm.trans h
    nofun
  | some loaded =>
    rcases (scoreForeign_eq_error_iff hloaded).1 h with ⟨-, rfl⟩ | ⟨_, -, ⟨-, rfl⟩ | ⟨_, -,
      ⟨_, -, rfl⟩ | ⟨_, -, ⟨-, rfl⟩ | ⟨-, _, -, rfl⟩⟩⟩⟩
    all_goals nofun

/-- To score a word a registry is only read. -/
theorem atomic_scoreForeign (word : ForeignText) (context : ForeignArray ForeignText) :
    Action.Atomic (do (← get).scoreForeign word context : Action Registry LogProb) :=
  Action.atomic_read fun _ _ h => scoreForeign_ne_panicked h

end Registry

end BackoffLM

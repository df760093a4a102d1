import BackoffLM.Model
import Mathlib.Data.List.Basic

/-!
# Walks through a search structure

Scoring and the state of a context both walk from a word to longer and longer n-grams, in any search
structure. A walk over the front of a context is the front of the walk over all of it
(`extensions_take`), and what it finds are the first words of the context (`map_fst_extensions`). So
the words of a context state are the first words of the context (`words_contextState`), and there
are at most as many as a score can use (`length_contextState_le`). `chain?` follows older words one
by one and fails with the first one that is missing, and an index is `LeftClosed` when a chain that
is found is found without its last word as well.
-/

namespace BackoffLM.NgramIndex

variable {S : Type} [NgramIndex S] (index : S)

/-- A walk ends where an n-gram is missing. -/
theorem extensions_of_none {level : Nat} {node : Node} {word : WordId}
    (h : extend index level node word = none) (older : List WordId) :
    extensions index level node (word :: older) = [] := by
  rw [extensions, h]

/-- A walk goes on from an n-gram that is found. -/
theorem extensions_of_some {level : Nat} {node : Node} {word : WordId} {next : Node × Weights}
    (h : extend index level node word = some next) (older : List WordId) :
    extensions index level node (word :: older) =
      (word, next.2) :: extensions index (level + 1) next.1 older := by
  rw [extensions, h]

/-- A walk over the front of a context is the front of the walk. -/
theorem extensions_take (level : Nat) (node : Node) (older : List WordId) (n : Nat) :
    extensions index level node (older.take n) = (extensions index level node older).take n := by
  induction older generalizing level node n with
  | nil => simp [extensions]
  | cons word older ih =>
    cases n with
    | zero => simp [extensions]
    | succ n =>
      rw [List.take_succ_cons, extensions, extensions]
      cases extend index level node word with
      | none => simp
      | some next =>
        dsimp only
        rw [ih, List.take_succ_cons]

/-- A walk finds no more than it is given. -/
theorem length_extensions_le (level : Nat) (node : Node) (older : List WordId) :
    (extensions index level node older).length ≤ older.length := by
  induction older generalizing level node with
  | nil => simp [extensions]
  | cons word older ih =>
    rw [extensions]
    cases extend index level node word with
    | none => simp
    | some next =>
      have := ih (level + 1) next.1
      simp only [List.length_cons]
      omega

/-- What a walk finds are the first words that it is given. -/
theorem map_fst_extensions (level : Nat) (node : Node) (older : List WordId) :
    (extensions index level node older).map Prod.fst =
      older.take (extensions index level node older).length := by
  induction older generalizing level node with
  | nil => simp [extensions]
  | cons word older ih =>
    rw [extensions]
    cases extend index level node word with
    | none => simp
    | some next =>
      dsimp only
      rw [List.map_cons, List.length_cons, List.take_succ_cons, ih]

/-! ## Context states -/

/-- The state after a context that a score can use. -/
theorem contextState_cons (word : WordId) (older : List WordId) (h : 0 < contextLimit index) :
    (contextState index (word :: older)).context =
      ⟨word, (unigram index word).2.backoff⟩ ::
        (extensions index 1 (unigram index word).1 (older.take (contextLimit index - 1))).map
          contextWord := by
  obtain ⟨n, hn⟩ : ∃ n, contextLimit index = n + 1 := ⟨contextLimit index - 1, by omega⟩
  rw [contextState, hn, List.take_succ_cons, Nat.add_sub_cancel]

/-- The state when there is no context that a score can use. -/
theorem contextState_of_take_eq_nil {context : List WordId}
    (h : context.take (contextLimit index) = []) : contextState index context = .empty := by
  rw [contextState, h]

/-- A state keeps no more words than a score can use. -/
theorem length_contextState_le (context : List WordId) :
    (contextState index context).length ≤ contextLimit index := by
  cases context with
  | nil =>
    rw [contextState_of_take_eq_nil index List.take_nil]
    exact Nat.zero_le _
  | cons word older =>
    rcases Nat.eq_zero_or_pos (contextLimit index) with h0 | hpos
    · rw [contextState_of_take_eq_nil index (by rw [h0, List.take_zero])]
      exact Nat.zero_le _
    · have hle := length_extensions_le index 1 (unigram index word).1
        (older.take (contextLimit index - 1))
      rw [List.length_take] at hle
      rw [State.length, contextState_cons index word older hpos, List.length_cons, List.length_map]
      omega

/-- The words of a state are the first words of its context. -/
theorem words_contextState (context : List WordId) :
    (contextState index context).words = context.take (contextState index context).length := by
  cases context with
  | nil =>
    rw [contextState_of_take_eq_nil index List.take_nil]
    rfl
  | cons word older =>
    rcases Nat.eq_zero_or_pos (contextLimit index) with h0 | hpos
    · rw [contextState_of_take_eq_nil index (by rw [h0, List.take_zero])]
      rfl
    · -- After the newest word come the words that the walk found.
      have hwords := map_fst_extensions index 1 (unigram index word).1
        (older.take (contextLimit index - 1))
      have hle := length_extensions_le index 1 (unigram index word).1
        (older.take (contextLimit index - 1))
      rw [List.length_take] at hle
      rw [List.take_take, Nat.min_eq_left (by omega)] at hwords
      rw [State.words, State.length, contextState_cons index word older hpos, List.map_cons,
        List.length_cons, List.take_succ_cons, List.map_map, List.length_map, ← hwords]
      rfl

/-- A state keeps no more words than its context has. -/
theorem length_contextState_le_length (context : List WordId) :
    (contextState index context).length ≤ context.length := by
  have hwords := congrArg List.length (words_contextState index context)
  rw [State.words, List.length_map, List.length_take] at hwords
  rw [State.length]
  rw [State.length] at hwords
  omega

/-! ## Chains -/

/-- Goes from a node with its weights to those of the n-gram with older words, newest first, before
it, if every n-gram on the way is found. -/
def follow : (level : Nat) → Node × Weights → List WordId → Option (Node × Weights)
  | _, here, [] => some here
  | level, here, word :: older =>
    match extend index level here.1 word with
    | none => none
    | some next => follow (level + 1) next older

/-- Looks a word up and puts older words before it, newest first. -/
def chain? (word : WordId) (older : List WordId) : Option (Node × Weights) :=
  follow index 1 (unigram index word) older

/-- A chain is found when its first step is and the rest is found from there. -/
theorem follow_cons_eq_some_iff {level : Nat} {here found : Node × Weights} {word : WordId}
    {older : List WordId} :
    follow index level here (word :: older) = some found ↔
      ∃ next, extend index level here.1 word = some next ∧
        follow index (level + 1) next older = some found := by
  rw [follow]
  cases extend index level here.1 word with
  | none => simp
  | some next => simp

/-- A chain is found when the walk finds all of its words. -/
theorem follow_isSome_iff (level : Nat) (here : Node × Weights) (older : List WordId) :
    (follow index level here older).isSome = true ↔
      older.length ≤ (extensions index level here.1 older).length := by
  induction older generalizing level here with
  | nil => simp [follow]
  | cons word older ih =>
    rw [follow, extensions]
    -- Both go on from the same node, or end with the same word.
    cases extend index level here.1 word with
    | none => simp
    | some next => simp [ih]

/-- The front of a chain is found when the walk gets so far. -/
theorem chain?_take_isSome_iff (word : WordId) (older : List WordId) (n : Nat)
    (hn : n ≤ older.length) : (chain? index word (older.take n)).isSome = true ↔
      n ≤ (extensions index 1 (unigram index word).1 older).length := by
  rw [chain?, follow_isSome_iff, extensions_take, List.length_take, List.length_take]
  omega

/-- With every n-gram of words below a bound the n-gram without its last word is stored. -/
def LeftClosed (bound : Nat) : Prop :=
  ∀ (word newest : WordId) (older : List WordId), word < bound → newest < bound →
    (∀ w ∈ older, w < bound) → (chain? index word (newest :: older)).isSome = true →
      (chain? index newest older).isSome = true

end BackoffLM.NgramIndex

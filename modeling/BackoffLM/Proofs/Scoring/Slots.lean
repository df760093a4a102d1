import BackoffLM.Proofs.Safety.Runs

/-!
# States in places

In memory a state is a fixed number of places for words and as many for backoff weights, of which
the first few are in use (`Slots`). Two loops fill them: that of a context (`contextSlots`) writes a
place for each word that it finds, and that of a score (`scoreSlots`) writes the scored word and
then the words found, as far as a score can use them. `Slots.ofState` is a state in its places, with
zero in the others. Both loops start from blank places and leave exactly the states of
`contextState` and `score` (`contextSlots_eq`, `scoreSlots_eq`): no place keeps what is not in use
any more, and none is written past the longest context.
-/

namespace BackoffLM

/-- A state as it is kept: the places for words and for backoff weights, and the number of those in
use, which come first. -/
@[ext]
structure Slots where
  words : Vector WordId stateSlots
  backoffs : Vector LogProb stateSlots
  used : Nat
  deriving DecidableEq

namespace Slots

/-- Values in the first places, and another value in the places after them. -/
def padded {α : Type} (values : List α) (other : α) : Vector α stateSlots :=
  .ofFn fun place => values.getD place other

/-- No place in use, and zero in all of them. -/
def blank : Slots := ⟨.replicate stateSlots 0, .replicate stateSlots .zero, 0⟩

/-- Writes a word of a context at a place; the places up to it are then in use. -/
def write (slots : Slots) (place : Nat) (word : ContextWord) : Slots where
  words := slots.words.setIfInBounds place word.word
  backoffs := slots.backoffs.setIfInBounds place word.backoff
  used := place + 1

/-- The words in the places in use. -/
def inUse (slots : Slots) : List WordId := slots.words.toList.take slots.used

/-- The backoff weights beside them. -/
def weights (slots : Slots) : List LogProb := slots.backoffs.toList.take slots.used

/-- The places after those in use hold zero. -/
def Clean (slots : Slots) : Prop :=
  ∀ place (h : place < stateSlots), slots.used ≤ place →
    slots.words[place] = 0 ∧ slots.backoffs[place] = .zero

/-- A state in its places, with zero in the places after it. -/
def ofState (state : State) : Slots :=
  ⟨padded state.words 0, padded state.backoffs .zero, state.length⟩

section Padded

variable {α : Type} {values : List α} {other : α}

/-- Without values every place holds the other one. -/
theorem padded_nil : padded [] other = .replicate stateSlots other := by
  apply Vector.ext
  intro place h
  simp [padded]

variable (values other) in
/-- The place after the values takes one more. -/
theorem setIfInBounds_padded (value : α) :
    (padded values other).setIfInBounds values.length value = padded (values ++ [value]) other := by
  apply Vector.ext
  intro place h
  simp only [padded, Vector.getElem_setIfInBounds h, Vector.getElem_ofFn,
    List.getD_eq_getElem?_getD]
  rcases Nat.lt_trichotomy place values.length with hlt | rfl | hgt
  · rw [if_neg (by omega), List.getElem?_append_left hlt]
  · simp
  · rw [if_neg (by omega), List.getElem?_eq_none (by omega),
      List.getElem?_eq_none (by rw [List.length_append, List.length_singleton]; omega)]

variable (values other) in
/-- The values are in the first places. -/
theorem take_padded (h : values.length ≤ stateSlots) :
    (padded values other).toList.take values.length = values := by
  apply List.ext_getElem
  · rw [List.length_take, Vector.length_toList]
    omega
  · intro place hplace hvalue
    simp [padded, hvalue]

/-- After the values there is the other one. -/
theorem getElem_padded {place : Nat} (h : place < stateSlots) (hle : values.length ≤ place) :
    (padded values other)[place] = other := by
  simp [padded, hle]

end Padded

/-- Blank places hold the empty state. -/
theorem ofState_empty : ofState .empty = blank := by
  unfold ofState blank
  exact Slots.ext padded_nil padded_nil rfl

/-- The place after a context takes one more word. -/
theorem write_ofState (context : List ContextWord) (word : ContextWord) :
    (ofState ⟨context⟩).write context.length word = ofState ⟨context ++ [word]⟩ := by
  have hwords := setIfInBounds_padded (context.map ContextWord.word) 0 word.word
  have hbackoffs := setIfInBounds_padded (context.map ContextWord.backoff) .zero word.backoff
  rw [List.length_map] at hwords hbackoffs
  apply Slots.ext
  · show (padded (context.map ContextWord.word) 0).setIfInBounds context.length word.word = _
    rw [hwords, ofState, State.words, List.map_append, List.map_singleton]
  · show (padded (context.map ContextWord.backoff) .zero).setIfInBounds context.length _ = _
    rw [hbackoffs, ofState, State.backoffs, List.map_append, List.map_singleton]
  · show context.length + 1 = (context ++ [word]).length
    rw [List.length_append, List.length_singleton]

section OfState

variable {state : State}

/-- The words of a state are in use. -/
theorem inUse_ofState (h : state.length ≤ stateSlots) : (ofState state).inUse = state.words := by
  have htake := take_padded state.words 0
  rw [State.words, List.length_map] at htake
  exact htake h

/-- The backoff weights of a state are in use. -/
theorem weights_ofState (h : state.length ≤ stateSlots) :
    (ofState state).weights = state.backoffs := by
  have htake := take_padded state.backoffs .zero
  rw [State.backoffs, List.length_map] at htake
  exact htake h

/-- A state leaves zero in the places after it. -/
theorem clean_ofState (state : State) : (ofState state).Clean := by
  intro place h hle
  constructor
  · exact getElem_padded h (by rw [State.words, List.length_map]; exact hle)
  · exact getElem_padded h (by rw [State.backoffs, List.length_map]; exact hle)

end OfState

end Slots

namespace NgramIndex

variable {S : Type} [NgramIndex S]

/-! ## The loops -/

/-- Writes context words from a place on, each as long as the n-gram that it leads to is found. -/
def fillContext (index : S) : (place : Nat) → Node → Slots → List WordId → Slots
  | _, _, slots, [] => slots
  | place, node, slots, word :: older =>
    match extend index place node word with
    | none => slots
    | some (next, weights) =>
      fillContext index (place + 1) next (slots.write place (contextWord (word, weights))) older

/-- The places after a context given newest word first. -/
def contextSlots (index : S) (context : List WordId) : Slots :=
  match context.take (contextLimit index) with
  | [] => .blank
  | newest :: older =>
    let (node, weights) := unigram index newest
    fillContext index 1 node (Slots.blank.write 0 ⟨newest, weights.backoff⟩) older

/-- What the loop of a score carries. -/
structure Progress where
  /-- The log probability of the longest n-gram so far. -/
  prob : LogProb
  /-- The number of context words in it. -/
  matched : Nat
  /-- The places of the next state. -/
  out : Slots

/-- Goes on with the words of a state, and writes those that are found and that a score can use. -/
def fillScore (index : S) : Node → Progress → List WordId → Progress
  | _, done, [] => done
  | node, done, word :: older =>
    match extend index (done.matched + 1) node word with
    | none => done
    | some (next, weights) =>
      let matched := done.matched + 1
      let out :=
        if matched < contextLimit index then done.out.write matched (contextWord (word, weights))
        else done.out
      fillScore index next ⟨weights.prob, matched, out⟩ older

/-- Scores a word in a state that is kept in places, with the places of the state after it. -/
def scoreSlots (index : S) (state : Slots) (word : WordId) : Score × Slots :=
  let (node, alone) := unigram index word
  let out :=
    if 0 < contextLimit index then Slots.blank.write 0 ⟨word, alone.backoff⟩ else .blank
  let done := fillScore index node ⟨alone.prob, 0, out⟩ state.inUse
  (⟨done.prob + .sum (state.weights.drop done.matched), done.matched + 1⟩, done.out)

/-- Scores a word after a context given newest word first, with the places of the state after it. -/
def scoreAfterSlots (index : S) (context : List WordId) (word : WordId) : Score × Slots :=
  scoreSlots index (contextSlots index context) word

/-! ## What the loops leave -/

variable {index : S}

/-- The loop of a context writes what the walk finds. -/
theorem fillContext_eq {place : Nat} {written : List ContextWord} (hplace : written.length = place)
    (node : Node) (older : List WordId) :
    fillContext index place node (.ofState ⟨written⟩) older =
      .ofState ⟨written ++ (extensions index place node older).map contextWord⟩ := by
  induction older generalizing place node written with
  | nil => rw [fillContext, extensions, List.map_nil, List.append_nil]
  | cons word older ih =>
    rw [fillContext]
    cases hnext : extend index place node word with
    | none => rw [extensions_of_none index hnext, List.map_nil, List.append_nil]
    | some next =>
      have hlonger : (written ++ [contextWord (word, next.2)]).length = place + 1 := by
        rw [List.length_append, List.length_singleton, hplace]
      have hrest := ih hlonger next.1
      rw [List.append_assoc, List.singleton_append] at hrest
      have hwrite := Slots.write_ofState written (contextWord (word, next.2))
      rw [hplace] at hwrite
      dsimp only
      rw [hwrite, hrest, extensions_of_some index hnext, List.map_cons]

/-- The loop of a context leaves the state after it. -/
theorem contextSlots_eq (context : List WordId) :
    contextSlots index context = .ofState (contextState index context) := by
  unfold contextSlots contextState
  cases context.take (contextLimit index) with
  | nil => exact Slots.ofState_empty.symm
  | cons newest older =>
    dsimp only
    have hwrite := Slots.write_ofState [] ⟨newest, (unigram index newest).2.backoff⟩
    rw [List.length_nil, List.nil_append] at hwrite
    rw [← Slots.ofState_empty]
    change fillContext index 1 _ ((Slots.ofState ⟨[]⟩).write 0 _) older = _
    rw [hwrite, fillContext_eq List.length_singleton, List.singleton_append]

/-- The loop of a score finds what the walk finds, and leaves of it what a score can use. -/
theorem fillScore_eq {matched : Nat} {found : List ContextWord}
    (hfound : found.length = matched + 1) (node : Node) (prob : LogProb) (older : List WordId) :
    fillScore index node ⟨prob, matched, .ofState ⟨found.take (contextLimit index)⟩⟩ older =
      ⟨((extensions index (matched + 1) node older).getLast?.map fun f => f.2.prob).getD prob,
        matched + (extensions index (matched + 1) node older).length,
        .ofState ⟨(found ++ (extensions index (matched + 1) node older).map contextWord).take
          (contextLimit index)⟩⟩ := by
  induction older generalizing matched node prob found with
  | nil => rw [fillScore, extensions, List.map_nil, List.append_nil]; rfl
  | cons word older ih =>
    rw [fillScore]
    dsimp only
    cases hnext : extend index (matched + 1) node word with
    | none => rw [extensions_of_none index hnext, List.map_nil, List.append_nil]; rfl
    | some next =>
      have hlonger : (found ++ [contextWord (word, next.2)]).length = matched + 1 + 1 := by
        rw [List.length_append, List.length_singleton, hfound]
      -- A word is written exactly when the cut at the longest context leaves it.
      have hout : (if matched + 1 < contextLimit index then
            (Slots.ofState ⟨found.take (contextLimit index)⟩).write (matched + 1)
              (contextWord (word, next.2))
          else .ofState ⟨found.take (contextLimit index)⟩) =
          .ofState ⟨(found ++ [contextWord (word, next.2)]).take (contextLimit index)⟩ := by
        split
        · rename_i hlt
          have hwrite := Slots.write_ofState found (contextWord (word, next.2))
          rw [hfound] at hwrite
          rw [List.take_of_length_le (by omega), List.take_of_length_le (by omega), hwrite]
        · rw [List.take_append_of_le_length (by omega)]
      have hrest := ih hlonger next.1 next.2.prob
      rw [List.append_assoc, List.singleton_append] at hrest
      dsimp only
      rw [hout, hrest, extensions_of_some index hnext, List.getLast?_cons, List.length_cons,
        List.map_cons]
      congr 1
      · cases (extensions index (matched + 1 + 1) next.1 older).getLast? <;> rfl
      · omega

/-- The loop of a score gives the score, and leaves the state after it. -/
theorem scoreSlots_eq {state : State} (hstate : state.length ≤ stateSlots) (word : WordId) :
    scoreSlots index (.ofState state) word =
      ((score index state word).1, .ofState (score index state word).2) := by
  have hstart : (if 0 < contextLimit index then
        Slots.blank.write 0 ⟨word, (unigram index word).2.backoff⟩ else .blank) =
      Slots.ofState ⟨[⟨word, (unigram index word).2.backoff⟩].take (contextLimit index)⟩ := by
    rw [← Slots.ofState_empty]
    split
    · rename_i hpos
      rw [List.take_of_length_le (by rw [List.length_singleton]; omega)]
      exact Slots.write_ofState [] _
    · rename_i hzero
      rw [show contextLimit index = 0 by omega, List.take_zero]
      rfl
  unfold scoreSlots
  dsimp only
  rw [hstart, Slots.inUse_ofState hstate, Slots.weights_ofState hstate,
    fillScore_eq List.length_singleton]
  dsimp only
  rw [Nat.zero_add, Nat.zero_add, List.singleton_append]
  rfl

end NgramIndex

end BackoffLM

import BackoffLM.Proofs.Scoring.Canonical
import BackoffLM.Proofs.Scoring.Sequence

/-!
# Two slots that take turns

In memory a call reads the state before a word in one slot, and writes the state after it into
another (`SlotCalls`). A sequence is added up in two slots (`probStringIn`): the first of two
numbers is scored from the one into the other, and the second back. `leftFold` threads one state
through the same scores instead. Where the calls give what a model gives, whatever the slot that
they write held before (`SlotCalls.Spec`), no state is overwritten before it is read, and both are
the same total, which is also that of `probString` (`probString_eq_leftFold`). The calls of a loaded
model are such calls, with states in their places (`slotCalls_spec`).
-/

namespace BackoffLM

/-- Calls that write the state after a word into a slot. The last argument of a call is what the
slot held before. -/
structure SlotCalls (Slot : Type) where
  /-- A slot that nothing was written into. -/
  blank : Slot
  /-- The slot of the state before any word. -/
  null : Slot
  /-- Scores a word in the state of a slot. -/
  score : Slot → WordId → (out : Slot) → Score × Slot
  /-- Scores a word after a context given newest word first. -/
  scoreAfter : List WordId → WordId → (out : Slot) → Score × Slot

/-- Calls give what a model gives, and leave its states in the slots that they write, whatever these
held before. A context is scored into a blank slot. -/
structure SlotCalls.Spec {Slot : Type} (calls : SlotCalls Slot) (model : LanguageModel)
    (holds : Slot → State → Prop) : Prop where
  null : holds calls.null model.nullState
  score : ∀ slot state word out, holds slot state →
    (calls.score slot word out).1 = (model.score state word).1 ∧
      holds (calls.score slot word out).2 (model.score state word).2
  scoreAfter : ∀ context word,
    (calls.scoreAfter context word calls.blank).1 = (model.scoreAfter context word).1 ∧
      holds (calls.scoreAfter context word calls.blank).2 (model.scoreAfter context word).2

namespace Scorer

/-! ## One state -/

/-- The state goes on to that after the number. The total grows by the score, or by the fixed cost
where the number counts as unknown. -/
def step (s : Scorer) (done : LogProb × State) (id : ExternalId) : LogProb × State :=
  let (score, next) := s.model.score done.2 (s.ids.wordOf id)
  (done.1 + if s.isFake id then s.oov.fakeCost else score.logProb, next)

/-- The total of the numbers from place `start` on as a left fold: of all numbers from zero and the
state before any word, or of those after the one at the place, which is scored after the last five
numbers before it. -/
def leftFold (s : Scorer) (ids : List ExternalId) (start : Nat) : LogProb :=
  if h : start < ids.length then
    if start = 0 then (ids.foldl s.step (.zero, s.model.nullState)).1
    else
      let context := ((ids.take start).reverse.take 5).map s.ids.wordOf
      let (score, state) := s.model.scoreAfter context (s.ids.wordOf ids[start])
      let first := if s.isFake ids[start] then s.oov.fakeCost else score.logProb
      ((ids.drop (start + 1)).foldl s.step (first, state)).1
  else .zero

variable (s : Scorer)

/-- The total of a left fold is that of the scores one after another. -/
theorem foldl_step_eq (total : LogProb) (state : State) (ids : List ExternalId) :
    (ids.foldl s.step (total, state)).1 = (s.scoresFrom state ids).foldl (· + ·) total := by
  induction ids generalizing total state with
  | nil => rfl
  | cons id ids ih => exact ih _ _

/-- States that take turns give the total of a left fold. -/
theorem addScores_eq_foldl (total : LogProb) (state : State) (ids : List ExternalId) :
    s.addScores total state ids = (ids.foldl s.step (total, state)).1 :=
  (s.addScores_eq total state ids).trans (s.foldl_step_eq total state ids).symm

/-- From a place on there is the number at the place, and then those after it. -/
theorem probString_eq (ids : List ExternalId) (start : Nat) :
    s.probString ids start = s.leftFold ids start := by
  unfold leftFold
  split
  · -- The sum starts with the score at the place, or with zero where nothing is before it.
    rename_i h
    unfold probString
    rw [List.drop_eq_getElem_cons h]
    cases start with
    | zero =>
      show s.addScores .zero s.model.nullState (ids[0] :: ids.drop 1) = _
      rw [addScores_eq_foldl, if_pos rfl, ← List.drop_eq_getElem_cons h, List.drop_zero]
    | succ start =>
      rw [if_neg (Nat.succ_ne_zero start)]
      exact s.addScores_eq_foldl _ _ _
  · rename_i h
    exact (s.probString_of_length_le (Nat.not_lt.mp h)).1

/-! ## Two slots -/

variable {Slot : Type} (calls : SlotCalls Slot)

/-- Adds the scores of numbers to a total in two slots. The first of two numbers is scored from
`state` into `other`, and the second from there back into `state`. -/
def addScoresIn : (total : LogProb) → (state other : Slot) → List ExternalId → LogProb
  | total, _, _, [] => total
  | total, state, other, [id] =>
    let (score, _) := calls.score state (s.ids.wordOf id) other
    total + s.cost id score.logProb
  | total, state, other, first :: second :: ids =>
    let (score, other) := calls.score state (s.ids.wordOf first) other
    let total := total + s.cost first score.logProb
    let (score, state) := calls.score other (s.ids.wordOf second) state
    addScoresIn (total + s.cost second score.logProb) state other ids

/-- The sum of the log probabilities of the numbers from place `start` on, in two slots. -/
def probStringIn (ids : List ExternalId) (start : Nat) : LogProb :=
  match start, ids.drop start with
  | _, [] => .zero
  | 0, all => s.addScoresIn calls .zero calls.null calls.blank all
  | _, id :: rest =>
    let (score, state) :=
      calls.scoreAfter (s.context (ids.take start)) (s.ids.wordOf id) calls.blank
    s.addScoresIn calls (s.cost id score.logProb) state calls.blank rest

variable {s calls} {holds : Slot → State → Prop} (hcalls : calls.Spec s.model holds)
include hcalls

/-- Two slots take turns as their states do, whatever the second held. -/
theorem addScoresIn_eq {slot : Slot} {state : State} (hslot : holds slot state) (other : Slot)
    (total : LogProb) (ids : List ExternalId) :
    s.addScoresIn calls total slot other ids = s.addScores total state ids := by
  fun_induction addScores s total state ids generalizing slot other with
  | case1 total state => rfl
  | case2 total state id score next h =>
    obtain ⟨hscore, -⟩ := hcalls.score slot state (s.ids.wordOf id) other hslot
    rw [h] at hscore
    rw [addScoresIn]
    dsimp only
    rw [hscore]
  | case3 total state first second ids score next h total' score' next' h' =>
    rename_i ih
    obtain ⟨hscore, hother⟩ := hcalls.score slot state (s.ids.wordOf first) other hslot
    rw [h] at hscore hother
    -- The second score reads what the first has written, and writes over what the first has read.
    obtain ⟨hscore', hstate⟩ := hcalls.score _ next (s.ids.wordOf second) slot hother
    rw [h'] at hscore' hstate
    rw [addScoresIn]
    dsimp only
    rw [hscore, hscore']
    exact ih hstate _

/-- In two slots the total is that of states that take turns. -/
theorem probStringIn_eq (ids : List ExternalId) (start : Nat) :
    s.probStringIn calls ids start = s.probString ids start := by
  unfold probStringIn probString
  rcases hdrop : ids.drop start with _ | ⟨id, rest⟩
  · rfl
  · cases start with
    | zero => exact addScoresIn_eq hcalls hcalls.null _ _ _
    | succ start =>
      obtain ⟨hscore, hstate⟩ := hcalls.scoreAfter (s.context (ids.take (start + 1)))
        (s.ids.wordOf id)
      show s.addScoresIn calls _ _ calls.blank rest = s.addScores _ _ rest
      rw [addScoresIn_eq hcalls hstate, hscore]

end Scorer

/-! ## Loaded models -/

namespace NgramIndex

variable {S : Type} [NgramIndex S]

/-- The calls of a search structure, with states in places. A call blanks the places that it writes
first. -/
def slotCalls (index : S) : SlotCalls Slots where
  blank := .blank
  null := .blank
  score slots word _ := scoreSlots index slots word
  scoreAfter context word _ := scoreAfterSlots index context word

/-- Places hold a state that is canonical. -/
def HoldsCanonical (index : S) (slots : Slots) (state : State) : Prop :=
  slots = .ofState state ∧ Canonical index state

end NgramIndex

open NgramIndex

/-- The calls of a loaded model give what the model gives. -/
theorem slotCalls_spec {kind : Kind} {m : Model kind.Index} (hm : m.Loaded) :
    (slotCalls m.index).Spec m.toLanguageModel (HoldsCanonical m.index) := by
  obtain ⟨-, hmax⟩ := hm.order_bounds
  have hscore : ∀ state word, Canonical m.index state →
      (scoreSlots m.index (.ofState state) word).1 = (score m.index state word).1 ∧
        HoldsCanonical m.index (scoreSlots m.index (.ofState state) word).2
          (score m.index state word).2 := by
    intro state word hstate
    rw [scoreSlots_eq (hstate.length_le_slots hmax)]
    exact ⟨rfl, rfl, canonical_score state word⟩
  refine ⟨⟨Slots.ofState_empty.symm, canonical_empty m.index⟩, ?_, fun context word => ?_⟩
  · rintro slots state word out ⟨rfl, hstate⟩
    exact hscore state word hstate
  · have hcontext := hscore (contextState m.index context) word (canonical_contextState context)
    rw [← contextSlots_eq] at hcontext
    exact hcontext

namespace Scorer

/-- Whatever the model gives, the sum of the log probabilities of numbers from a place on is the
left fold that threads one state through the scores; and so it is in two slots that take turns, with
any calls that give what the model gives whatever the slot that they write held before. -/
theorem probString_eq_leftFold (s : Scorer) (ids : List ExternalId) (start : Nat) :
    s.probString ids start = s.leftFold ids start ∧
      ∀ (Slot : Type) (calls : SlotCalls Slot) (holds : Slot → State → Prop),
        calls.Spec s.model holds → s.probStringIn calls ids start = s.leftFold ids start :=
  ⟨s.probString_eq ids start, fun _ _ _ hcalls =>
    (probStringIn_eq hcalls ids start).trans (s.probString_eq ids start)⟩

/-- Five numbers, two of which count as unknown, after a context of two, in the places of the small
trie. -/
theorem probString_eq_leftFold_sample :
    let index := (Model.ofArpa 8 Arpa.sampleArpa : Model Kind.trie.Index).index
    (slotCalls index).Spec sampleScorer.model (HoldsCanonical index) ∧
      sampleScorer.probString [1, 2, 1, -7, 0, 1, 2] 2 =
        sampleScorer.leftFold [1, 2, 1, -7, 0, 1, 2] 2 ∧
      sampleScorer.probStringIn (slotCalls index) [1, 2, 1, -7, 0, 1, 2] 2 =
        sampleScorer.leftFold [1, 2, 1, -7, 0, 1, 2] 2 := by
  intro index
  have hloaded : (Model.ofArpa 8 Arpa.sampleArpa : Model Kind.trie.Index).Loaded :=
    .arpa 8 Arpa.ofBytes_sample
  have hspec := slotCalls_spec hloaded
  obtain ⟨hfold, hslots⟩ := probString_eq_leftFold sampleScorer [1, 2, 1, -7, 0, 1, 2] 2
  exact ⟨hspec, hfold, hslots Slots (slotCalls index) (HoldsCanonical index) hspec⟩

end Scorer

end BackoffLM

import BackoffLM.IdMap
import BackoffLM.Proofs.Action
import BackoffLM.Proofs.Runs
import Mathlib.Data.List.Induction

/-!
# What a table of callers' numbers remembers

The table of an `IdMap` has a reserved slot, empty slots, and slots with words. Read by numbers it
is a finite map (`registered?`), which answers for the words that numbers lead to (`wordOf_eq`) and
for whether they are registered (`isRegistered_eq`). Growing the table adds nothing to the map
(`registered?_resize`), and a word that is put into the table is registered under its number and
changes no other (`registered?_insert`). A registration that is refused leaves the table as it was,
and no other runs past the end, as the table has grown before (`run_register`).

So after any history of registrations the map has under each positive number the word that was last
registered under it, and the table has room up to the greatest number registered (`Remembers`).
`registered_history` says what callers see of that: the word that a number leads to, whether it is
registered, the size, and the answer to the next registration.
-/

namespace BackoffLM.IdMap

/-- A caller's number with the word that it is to lead to. -/
abbrev Registration := ExternalId × WordId

variable (m : IdMap)

/-! ## The table as a map -/

/-- The word that is registered under a number. The reserved slot holds none of these. -/
def registered? (id : ExternalId) : Option WordId :=
  if reservedId < id then m.slot? id.toNat else none

/-- A number leads to the word registered under it, and to `<unk>` if there is none. -/
theorem wordOf_eq (id : ExternalId) : m.wordOf id = (m.registered? id).getD unknownId := by
  unfold wordOf registered?
  by_cases hpos : reservedId < id
  · have hnat : id.toNat? = some id.toNat :=
      Int.mem_toNat?.mpr (Int.toNat_of_nonneg (Int.le_of_lt hpos)).symm
    rw [if_pos hpos, hnat, Option.bind_some]
  · rw [if_neg hpos, Option.getD_none]
    cases id with
    | negSucc n => rfl
    | ofNat n =>
      -- What is left is the reserved slot.
      obtain rfl : n = 0 := by simpa [reservedId] using hpos
      show (m.slot? 0).getD unknownId = unknownId
      rw [slot?, m.reserved]
      rfl

theorem isRegistered_eq (id : ExternalId) : m.isRegistered id = (m.registered? id).isSome := by
  unfold isRegistered registered?
  by_cases hpos : reservedId < id
  · rw [if_pos hpos, decide_eq_true hpos, Bool.true_and]
  · rw [if_neg hpos, decide_eq_false hpos, Bool.false_and, Option.isSome_none]

/-- Nothing is registered in the reserved slot alone. -/
theorem registered?_empty (id : ExternalId) : empty.registered? id = none := by
  unfold registered?
  split
  · rename_i hpos
    have hpast : #[some unknownId].size ≤ id.toNat := Int.lt_toNat.mpr hpos
    show ((#[some unknownId])[id.toNat]?).join = none
    rw [Array.getElem?_eq_none hpast, Option.join_none]
  · rfl

theorem size_resize (size : Nat) : (m.resize size).size = max m.size size := by
  show (m.slots ++ Array.replicate (size - m.size) none).size = _
  rw [Array.size_append, Array.size_replicate]
  show m.size + (size - m.size) = _
  omega

/-- The slots that are added are empty. -/
theorem slot?_resize (size slot : Nat) : (m.resize size).slot? slot = m.slot? slot := by
  show ((m.slots ++ Array.replicate (size - m.size) none)[slot]?).join = (m.slots[slot]?).join
  rcases Nat.lt_or_ge slot m.slots.size with hslot | hslot
  · rw [Array.getElem?_append_left hslot]
  · rw [Array.getElem?_append_right hslot, Array.getElem?_eq_none hslot, Array.getElem?_replicate]
    split <;> rfl

/-- A word that is put in a slot changes that slot alone. -/
theorem slot?_put {slot : Nat} (hslot : slot ≠ 0) (hlt : slot < m.size) (word : WordId)
    (other : Nat) :
    (m.put slot hslot word).slot? other = if slot = other then some word else m.slot? other := by
  show ((m.slots.setIfInBounds slot (some word))[other]?).join = _
  rw [Array.getElem?_setIfInBounds]
  split
  · rename_i heq
    rw [if_pos (show slot < m.slots.size from hlt), Option.join_some]
  · rfl

theorem size_put {slot : Nat} (hslot : slot ≠ 0) (word : WordId) :
    (m.put slot hslot word).size = m.size := Array.size_setIfInBounds

/-! ## One registration -/

section

variable {m} {id : ExternalId}

/-- A positive number has a slot of its own. -/
theorem toNat_ne_zero (h : 0 < id) : id.toNat ≠ 0 := fun hzero =>
  Int.not_le.mpr h (Int.toNat_eq_zero.mp hzero)

variable (m)

/-- The table with a word under a positive number. -/
def insert (h : 0 < id) (word : WordId) : IdMap :=
  (m.resize (id.toNat + 1)).put id.toNat (toNat_ne_zero h) word

/-- The word is registered under that number, and the others are what they were. -/
theorem registered?_insert (h : 0 < id) (word : WordId) (other : ExternalId) :
    (m.insert h word).registered? other =
      if id = other then some word else m.registered? other := by
  have hlt : id.toNat < (m.resize (id.toNat + 1)).size := by
    rw [size_resize]
    exact Nat.lt_of_lt_of_le (Nat.lt_succ_self _) (Nat.le_max_right _ _)
  rw [registered?, insert, slot?_put _ _ hlt, slot?_resize, registered?]
  by_cases hpos : reservedId < other
  · -- Positive numbers are the same when their slots are.
    have hslot : id.toNat = other.toNat ↔ id = other := by
      have hid : (id.toNat : Int) = id := Int.toNat_of_nonneg (Int.le_of_lt h)
      have hother : (other.toNat : Int) = other := Int.toNat_of_nonneg (Int.le_of_lt hpos)
      refine ⟨fun heq => ?_, congrArg Int.toNat⟩
      rw [← hid, ← hother, heq]
    rw [if_pos hpos, if_pos hpos, if_congr hslot rfl rfl]
  · have hne : id ≠ other := fun heq => hpos (heq ▸ h)
    rw [if_neg hpos, if_neg hpos, if_neg hne]

theorem size_insert (h : 0 < id) (word : WordId) :
    (m.insert h word).size = max m.size (id.toNat + 1) := by
  rw [insert, size_put, size_resize]

/-- A number leads to the word that was last registered under it. -/
theorem wordOf_insert (h : 0 < id) (word : WordId) (other : ExternalId) :
    (m.insert h word).wordOf other = if id = other then word else m.wordOf other := by
  rw [wordOf_eq, registered?_insert, wordOf_eq]
  split <;> rfl

end

/-- There is no need to grow to a size that the table has. -/
theorem resize_of_le {size : Nat} (h : size ≤ m.size) : m.resize size = m := by
  obtain ⟨slots, hreserved⟩ := m
  have hnone : size - slots.size = 0 := Nat.sub_eq_zero_of_le h
  simp only [resize, IdMap.size, hnone, Array.replicate_zero, Array.append_empty]

/-- A table grows unless there is no memory for it. -/
theorem run_grow {size : Nat} {memory : Memory}
    (h : m.size < size → memory.reserve size = .ok ()) :
    (grow size memory).run.run m = (.ok (), m.resize size) := by
  unfold grow
  rw [Action.run_bind_ok Action.run_get]
  by_cases hsize : m.size < size
  · rw [if_pos hsize, h hsize]
    rfl
  · rw [if_neg hsize, resize_of_le m (Nat.not_lt.mp hsize)]
    rfl

theorem run_grow_of_noRoom {size : Nat} {memory : Memory} {reason : String} (hsize : m.size < size)
    (h : memory.reserve size = .error reason) :
    (grow size memory).run.run m = (.error (.noRoom size reason), m) := by
  unfold grow
  rw [Action.run_bind_ok Action.run_get, if_pos hsize, h]
  rfl

/-- A slot of the table is not out of bounds. -/
theorem run_replace {slot : Nat} (hslot : slot ≠ 0) (hlt : slot < m.size) (word : WordId) :
    (replace slot hslot word).run.run m =
      (.ok (m.slot? slot).isSome, m.put slot hslot word) := by
  unfold replace
  rw [Action.run_bind_ok Action.run_get, if_neg (Nat.not_le.mpr hlt)]
  rfl

section

variable {id : ExternalId} (word : WordId)

/-- The reserved number and the negative ones are refused. -/
theorem run_register_of_not_pos (memory : Memory) (h : ¬ 0 < id) :
    (register id word memory).run.run m = (.error (.reservedId id), m) := by
  unfold register
  rw [dif_pos (show id ≤ reservedId from Int.not_lt.mp h)]
  rfl

/-- So is a number whose slot has no room. -/
theorem run_register_of_noRoom {memory : Memory} {reason : String} (h : 0 < id)
    (hsize : m.size < id.toNat + 1) (hreserve : memory.reserve (id.toNat + 1) = .error reason) :
    (register id word memory).run.run m = (.error (.noRoom (id.toNat + 1) reason), m) := by
  unfold register
  rw [dif_neg (show ¬ id ≤ reservedId from Int.not_le.mpr h)]
  exact Action.run_bind_error (m.run_grow_of_noRoom hsize hreserve)

/-- Every other number is registered, in place of what was under it. The table has grown then, so
that no slot is out of bounds. -/
theorem run_register {memory : Memory} (h : 0 < id)
    (hroom : m.size < id.toNat + 1 → memory.reserve (id.toNat + 1) = .ok ()) :
    (register id word memory).run.run m = (.ok (m.isRegistered id), m.insert h word) := by
  have hlt : id.toNat < (m.resize (id.toNat + 1)).size := by
    rw [size_resize]
    exact Nat.lt_of_lt_of_le (Nat.lt_succ_self _) (Nat.le_max_right _ _)
  have hknown : m.isRegistered id = (m.slot? id.toNat).isSome := by
    rw [isRegistered, decide_eq_true (show reservedId < id from h), Bool.true_and]
  unfold register
  rw [dif_neg (show ¬ id ≤ reservedId from Int.not_le.mpr h), Action.run_bind_ok (m.run_grow hroom),
    run_replace _ (toNat_ne_zero h) hlt, slot?_resize, hknown]
  rfl

/-- There is memory for every table. -/
theorem run_register_ample (h : 0 < id) :
    (register id word).run.run m = (.ok (m.isRegistered id), m.insert h word) :=
  m.run_register word h fun _ => rfl

/-- There is no other way for a registration to end. -/
theorem run_register_cases (m : IdMap) (id : ExternalId) (word : WordId) (memory : Memory) :
    (¬ 0 < id ∧ (register id word memory).run.run m = (.error (.reservedId id), m)) ∨
    (∃ reason, 0 < id ∧ m.size < id.toNat + 1 ∧ memory.reserve (id.toNat + 1) = .error reason ∧
      (register id word memory).run.run m = (.error (.noRoom (id.toNat + 1) reason), m)) ∨
    (∃ h : 0 < id, (m.size < id.toNat + 1 → memory.reserve (id.toNat + 1) = .ok ()) ∧
      (register id word memory).run.run m = (.ok (m.isRegistered id), m.insert h word)) := by
  by_cases hpos : 0 < id
  · by_cases hroom : m.size < id.toNat + 1 → memory.reserve (id.toNat + 1) = .ok ()
    · exact .inr (.inr ⟨hpos, hroom, m.run_register word hpos hroom⟩)
    · obtain ⟨hsize, hreserve⟩ := Classical.not_imp.mp hroom
      cases hmemory : memory.reserve (id.toNat + 1) with
      | ok => exact absurd hmemory hreserve
      | error reason =>
        have hrun := m.run_register_of_noRoom word hpos hsize hmemory
        exact .inr (.inl ⟨reason, hpos, hsize, rfl, hrun⟩)
  · exact .inl ⟨hpos, m.run_register_of_not_pos word memory hpos⟩

end

/-- Registers a word, or is refused. -/
def next (m : IdMap) (call : Registration) : Except CallError Bool × IdMap :=
  (register call.1 call.2).run.run m

/-- The map after registrations. -/
def after (history : List Registration) : IdMap := Run.stateAfter next .empty history

theorem after_concat (history : List Registration) (call : Registration) :
    after (history ++ [call]) = ((after history).next call).2 :=
  Run.stateAfter_concat next .empty history call

/-! ## All of them -/

/-- The word that was last registered under a number; none under a number that is refused. -/
def lastWord? (history : List Registration) (id : ExternalId) : Option WordId :=
  if 0 < id then history.reverse.lookup id else none

/-- The greatest number registered; 0 when there is none. -/
def greatest (history : List Registration) : Nat :=
  (history.map fun call => call.1.toNat).foldl max 0

/-- A map holds what a history of registrations left. -/
structure Remembers (m : IdMap) (history : List Registration) : Prop where
  registered?_eq : ∀ id, m.registered? id = lastWord? history id
  size_eq : m.size = greatest history + 1

/-- The last registration counts for its number unless it is refused, and for no other. -/
theorem lastWord?_concat (history : List Registration) (call : Registration) (id : ExternalId) :
    lastWord? (history ++ [call]) id =
      if 0 < call.1 ∧ call.1 = id then some call.2 else lastWord? history id := by
  unfold lastWord?
  rw [List.reverse_append, List.reverse_singleton, List.singleton_append, List.lookup_cons]
  by_cases hid : call.1 = id
  · rw [beq_iff_eq.mpr hid.symm, hid]
    simp only [and_true]
    split <;> rfl
  · rw [beq_eq_false_iff_ne.mpr (Ne.symm hid)]
    simp only [hid, and_false, if_false]

theorem greatest_concat (history : List Registration) (call : Registration) :
    greatest (history ++ [call]) = max (greatest history) call.1.toNat := by
  rw [greatest, List.map_append, List.foldl_append]
  rfl

/-- No number that was registered is past the greatest. -/
theorem toNat_le_greatest {history : List Registration} {id : ExternalId}
    (h : id ∈ history.map Prod.fst) : id.toNat ≤ greatest history := by
  induction history using List.reverseRecOn with
  | nil => exact absurd h List.not_mem_nil
  | append_singleton history call ih =>
    rw [List.map_append, List.mem_append, List.map_singleton, List.mem_singleton] at h
    rw [greatest_concat]
    rcases h with h | rfl
    · exact Nat.le_trans (ih h) (Nat.le_max_left _ _)
    · exact Nat.le_max_right _ _

/-- A number has a word exactly when it is positive and some word was registered under it. -/
theorem isSome_lastWord?_iff (history : List Registration) (id : ExternalId) :
    (lastWord? history id).isSome = true ↔ 0 < id ∧ id ∈ history.map Prod.fst := by
  induction history using List.reverseRecOn with
  | nil => simp [lastWord?]
  | append_singleton history call ih =>
    rw [lastWord?_concat, List.map_append, List.mem_append, List.map_singleton,
      List.mem_singleton]
    split
    · rename_i hlast
      exact iff_of_true rfl ⟨hlast.2 ▸ hlast.1, .inr hlast.2.symm⟩
    · rename_i hlast
      rw [ih]
      refine and_congr_right fun hid => (or_iff_left ?_).symm
      rintro rfl
      exact hlast ⟨hid, rfl⟩

/-- Before any registration there is only the reserved number. -/
theorem remembers_empty : empty.Remembers [] where
  registered?_eq id := by
    rw [registered?_empty, lastWord?]
    split <;> rfl
  size_eq := rfl

/-- A registration adds to what is remembered. -/
theorem Remembers.next {m : IdMap} {history : List Registration} (h : m.Remembers history)
    (call : Registration) : (m.next call).2.Remembers (history ++ [call]) := by
  unfold IdMap.next
  by_cases hpos : 0 < call.1
  · rw [m.run_register_ample call.2 hpos]
    refine ⟨fun id => ?_, ?_⟩
    · rw [registered?_insert, lastWord?_concat, h.registered?_eq]
      simp only [hpos, true_and]
    · rw [size_insert, greatest_concat, h.size_eq, Nat.add_max_add_right]
  · rw [m.run_register_of_not_pos call.2 .ample hpos]
    refine ⟨fun id => ?_, ?_⟩
    · rw [lastWord?_concat, if_neg fun hlast => hpos hlast.1]
      exact h.registered?_eq id
    · rw [greatest_concat, Int.toNat_of_nonpos (Int.not_lt.mp hpos), Nat.max_zero]
      exact h.size_eq

/-- After any history a map holds what the history left. -/
theorem remembers_after (history : List Registration) : (after history).Remembers history := by
  induction history using List.reverseRecOn with
  | nil => exact remembers_empty
  | append_singleton history call ih =>
    rw [after_concat]
    exact ih.next call

namespace Remembers

variable {m : IdMap} {history : List Registration} (h : m.Remembers history)
include h

theorem wordOf_eq (id : ExternalId) : m.wordOf id = (lastWord? history id).getD unknownId := by
  rw [IdMap.wordOf_eq, h.registered?_eq]

theorem isRegistered_eq (id : ExternalId) :
    m.isRegistered id = (lastWord? history id).isSome := by
  rw [IdMap.isRegistered_eq, h.registered?_eq]

/-- A number that is not registered leads to the unknown word. So do those that are not positive and
those past the greatest, which cannot be, and those that were last registered for it. -/
theorem wordOf_eq_unknownId {id : ExternalId}
    (hid : m.isRegistered id = false ∨ id ≤ 0 ∨ (m.size : Int) ≤ id ∨
      lastWord? history id = some unknownId) : m.wordOf id = unknownId := by
  rw [h.wordOf_eq]
  rcases hid with hnone | hnonpos | hpast | hunknown
  · rw [h.isRegistered_eq, Option.isSome_eq_false_iff, Option.isNone_iff_eq_none] at hnone
    rw [hnone, Option.getD_none]
  · rw [lastWord?, if_neg (Int.not_lt.mpr hnonpos), Option.getD_none]
  · have hnone : lastWord? history id = none := by
      rw [← Option.not_isSome_iff_eq_none, isSome_lastWord?_iff]
      rintro ⟨-, hmem⟩
      have hle := toNat_le_greatest hmem
      rw [h.size_eq] at hpast
      omega
    rw [hnone, Option.getD_none]
  · rw [hunknown, Option.getD_some]

end Remembers

/-- Whatever was registered before, with memory for every table: each number leads to the word that
was last registered under it, and to the unknown word when none was; it is registered exactly when
one was; and the size is one more than the greatest number registered. The next registration is
refused exactly when its number is not positive, which leaves the map as it is, and otherwise tells
whether the number was registered before. -/
theorem registered_history (history : List Registration) :
    let m := after history
    (∀ id, m.wordOf id = (lastWord? history id).getD unknownId ∧
        (m.isRegistered id = true ↔ 0 < id ∧ id ∈ history.map Prod.fst)) ∧
      m.size = 1 + greatest history ∧
      ∀ id word,
        (id ≤ 0 → m.next (id, word) = (.error (.reservedId id), m)) ∧
          (0 < id → (m.next (id, word)).1 = .ok (decide (id ∈ history.map Prod.fst))) := by
  intro m
  have hm : m.Remembers history := remembers_after history
  have hregistered : ∀ id, m.isRegistered id = true ↔ 0 < id ∧ id ∈ history.map Prod.fst := by
    intro id
    rw [hm.isRegistered_eq, isSome_lastWord?_iff]
  refine ⟨fun id => ⟨hm.wordOf_eq id, hregistered id⟩, ?_, fun id word => ⟨fun hid => ?_,
    fun hid => ?_⟩⟩
  · rw [hm.size_eq, Nat.add_comm]
  · exact m.run_register_of_not_pos word .ample (Int.not_lt.mpr hid)
  · rw [next, m.run_register_ample word hid, Except.ok.injEq, Bool.eq_iff_iff, hregistered,
      decide_eq_true_iff]
    exact and_iff_right hid

/-- A number that was passed over, one that leads to the unknown word, and one that was registered
twice. -/
example :
    let m := after [(3, 7), (1, 0), (-2, 5), (3, 8)]
    [0, 1, 2, 3, 4].map m.wordOf = [0, 0, 0, 8, 0] ∧
      [0, 1, 2, 3, 4].map m.isRegistered = [false, true, false, true, false] ∧ m.size = 4 := by
  cbv

end BackoffLM.IdMap

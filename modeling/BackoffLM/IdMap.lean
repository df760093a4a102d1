import BackoffLM.Action
import BackoffLM.Oov

/-!
# From callers' numbers to words

A caller registers its own positive numbers for words of a model. They are kept in a table with a
slot for each number from 0 on. Slot 0 is reserved and leads to `<unk>`. The table grows to the slot
that is needed, asking for memory first, and the slots that are passed over stay empty. A number
without a word leads to `<unk>`, as do numbers past the end and negative ones.
-/

namespace BackoffLM

/-- Whether there is memory for a table of a size, and the system's words when there is not. -/
structure Memory where
  reserve : Nat → Except String Unit

/-- Memory for every table. -/
def Memory.ample : Memory := ⟨fun _ => .ok ()⟩

/-- Words in slots, by callers' numbers. -/
structure IdMap where
  slots : Array (Option WordId)
  reserved : slots[0]? = some (some unknownId)

namespace IdMap

/-- The reserved slot alone. -/
def empty : IdMap := ⟨#[some unknownId], rfl⟩

instance : Inhabited IdMap := ⟨empty⟩

/-- How many slots there are. -/
def size (m : IdMap) : Nat := m.slots.size

/-- The word in a slot, if the slot is there and has one. -/
def slot? (m : IdMap) (slot : Nat) : Option WordId := m.slots[slot]?.join

/-- Whether a number was registered. -/
def isRegistered (m : IdMap) (id : ExternalId) : Bool :=
  decide (reservedId < id) && (m.slot? id.toNat).isSome

/-- The word that a number leads to. -/
def wordOf (m : IdMap) (id : ExternalId) : WordId := (id.toNat?.bind m.slot?).getD unknownId

/-- The reserved slot is before all others. -/
theorem size_pos (m : IdMap) : 0 < m.size := (Array.getElem?_eq_some_iff.mp m.reserved).1

/-- Adds empty slots, up to a size. -/
def resize (m : IdMap) (size : Nat) : IdMap where
  slots := m.slots ++ Array.replicate (size - m.size) none
  reserved := by rw [Array.getElem?_append_left m.size_pos, m.reserved]

/-- Makes sure that there are a number of slots. -/
def grow (size : Nat) (memory : Memory) : Action IdMap Unit := do
  let m ← get
  if m.size < size then
    match memory.reserve size with
    | .error reason => throw (.noRoom size reason)
    | .ok () => set (m.resize size)

/-- Puts a word in a slot that is not reserved. -/
def put (m : IdMap) (slot : Nat) (hslot : slot ≠ 0) (word : WordId) : IdMap where
  slots := m.slots.setIfInBounds slot (some word)
  reserved := by rw [Array.getElem?_setIfInBounds_ne hslot, m.reserved]

/-- Puts a word in a slot that is not reserved, and tells whether there was one. A slot past the end
is out of bounds. -/
def replace (slot : Nat) (hslot : slot ≠ 0) (word : WordId) : Action IdMap Bool := do
  let m ← get
  if m.size ≤ slot then
    throw (.panicked s!"index out of bounds: the len is {m.size} but the index is {slot}")
  else
    set (m.put slot hslot word)
    return (m.slot? slot).isSome

/-- Registers a word under a positive number, in place of the one before, and tells whether there
was one. -/
def register (id : ExternalId) (word : WordId) (memory : Memory := .ample) : Action IdMap Bool :=
  if h : id ≤ reservedId then throw (.reservedId id)
  else do
    grow (id.toNat + 1) memory
    replace id.toNat (fun hzero => h (Int.toNat_eq_zero.mp hzero)) word

end IdMap

end BackoffLM

import BackoffLM.Bisect
import BackoffLM.Codec

/-!
# Child pointers

The children of a trie's nodes follow one another in the next level, so a level keeps one offset for
each node, its first child, and one more for the end. `PlainPointers` keeps the offsets as they are.
`PackedPointers` keeps the 16 low bits of each, and for every value of the bits above them the place
where it is first reached: as offsets never decrease, the high bits of an offset are the number of
such places at or before its own, less one.
-/

namespace BackoffLM

/-- A list of child offsets. -/
class PointerArray (P : Type) where
  /-- Whether the offsets are packed. -/
  compressed : Bool
  ofOffsets : List Nat → P
  /-- The offset at a place. -/
  get : P → Nat → Nat
  size : P → Nat
  codec : Codec P

namespace PointerArray

variable {P : Type} [PointerArray P]

/-- Whether there is an offset for each of `parents` nodes and one for the end, none below the one
before it or above `children`. -/
def validate (p : P) (parents children : Nat) : Except Flaw Unit :=
  if size p ≠ parents + 1 then .error (.pointerCount (size p) parents)
  else do
    let _ ← (List.range (size p)).foldlM (fun least i =>
      let offset := get p i
      if offset < least ∨ children < offset then .error (.pointerOrder i) else .ok offset) 0
    .ok ()

end PointerArray

/-- Offsets as they are. -/
structure PlainPointers where
  offsets : Array Nat
  deriving DecidableEq, Repr

instance : PointerArray PlainPointers where
  compressed := false
  ofOffsets offsets := ⟨offsets.toArray⟩
  get p i := p.offsets.getD i 0
  size p := p.offsets.size
  codec := (Codec.seq (.word 8)).map (fun offsets => ⟨offsets⟩) fun p => p.offsets

/-- Offsets in two parts. -/
structure PackedPointers where
  /-- The low 16 bits of each offset. -/
  low : Array UInt16
  /-- For each value of the bits above, the first place whose offset reaches it. -/
  highStarts : Array Nat
  deriving DecidableEq, Repr

namespace PackedPointers

/-- What one of the high bits counts for: the low bits hold the numbers below it. -/
def highUnit : Nat := 0x10000

/-- No offsets. -/
def empty : PackedPointers := ⟨#[], #[]⟩

/-- Adds an offset at the end. -/
def push (p : PackedPointers) (offset : Nat) : PackedPointers :=
  let missing := offset / highUnit + 1 - p.highStarts.size
  ⟨p.low.push (UInt16.ofNat offset), p.highStarts ++ Array.replicate missing p.low.size⟩

/-- The offset at a place. -/
def get (p : PackedPointers) (i : Nat) : Nat :=
  let high := Bisect.boundary p.highStarts (fun start => start ≤ i) - 1
  high * highUnit + (p.low.getD i 0).toNat

end PackedPointers

instance : PointerArray PackedPointers where
  compressed := true
  ofOffsets offsets := offsets.foldl PackedPointers.push .empty
  get := PackedPointers.get
  size p := p.low.size
  codec :=
    ((Codec.seq .word16).pair (.seq (.word 8))).map (fun p => ⟨p.1, p.2⟩)
      fun p => (p.low, p.highStarts)

end BackoffLM

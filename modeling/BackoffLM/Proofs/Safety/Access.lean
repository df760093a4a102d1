import BackoffLM.Index.Values
import BackoffLM.Proofs.Outcome
import BackoffLM.Proofs.Pointers

/-!
# Accesses that can go wrong

`Fault` lists what can go wrong while a structure is searched. `element` and `stretch` are an access
to one element of an array and to a stretch of it, refused when they leave the array. The pointers
and the weights of a trie level come with their accesses guarded so; below their size these give
what the accesses of the index give.
-/

namespace BackoffLM

/-- What can go wrong while a structure is searched. -/
inductive Fault where
  /-- An index or the end of a range lies outside of what it is taken from. -/
  | outOfRange
  /-- A range ends before it starts. -/
  | invertedRange
  /-- The walk over the buckets of a table does not end. -/
  | endlessProbe
  deriving DecidableEq, Repr

namespace Guarded

/-- The element at an index. -/
def element {α : Type} (xs : Array α) (i : Nat) : Except Fault α :=
  match xs[i]? with
  | some x => .ok x
  | none => .error .outOfRange

/-- Whether the elements from `start` up to, not including, `stop` can be taken from `size` ones. -/
def stretch (size start stop : Nat) : Except Fault Unit :=
  if stop < start then .error .invertedRange
  else if size < stop then .error .outOfRange
  else .ok ()

/-- An element in range is given. -/
theorem element_eq {α : Type} {xs : Array α} {i : Nat} (h : i < xs.size) (x : α) :
    element xs i = .ok (xs.getD i x) := by
  unfold element
  simp [h]

/-- A stretch in order and in range can be taken. -/
theorem stretch_eq {size start stop : Nat} (h : start ≤ stop) (hsize : stop ≤ size) :
    stretch size start stop = .ok () := by
  unfold stretch
  rw [if_neg (by omega), if_neg (by omega)]

end Guarded

/-- Pointers whose accesses are also given guarded. -/
class GuardedPointers (P : Type) [PointerArray P] where
  getGuarded : P → Nat → Except Fault Nat
  getGuarded_eq : ∀ (p : P) (i : Nat), i < PointerArray.size p →
    getGuarded p i = .ok (PointerArray.get p i)

instance : GuardedPointers PlainPointers where
  getGuarded p i := Guarded.element p.offsets i
  getGuarded_eq _ _ h := Guarded.element_eq h 0

/-- The high bits are counted, whatever places the pointers hold for them; only the low bits are
taken from a place. -/
instance : GuardedPointers PackedPointers where
  getGuarded p i := do
    let low ← Guarded.element p.low i
    let high := Bisect.boundary p.highStarts (fun start => start ≤ i) - 1
    .ok (high * PackedPointers.highUnit + low.toNat)
  getGuarded_eq _ _ h := by
    rw [Guarded.element_eq h 0]
    rfl

/-- Weights whose accesses are also given guarded. -/
class GuardedWeights (V : Type) [WeightStore V] where
  getGuarded : V → Nat → Except Fault Weights
  getGuarded_eq : ∀ (v : V) (i : Nat), i < WeightStore.size v →
    getGuarded v i = .ok (WeightStore.get v i)

instance : GuardedWeights FloatValues where
  getGuarded v i := Guarded.element v.weights i
  getGuarded_eq _ _ h := Guarded.element_eq h default

/-- A code that is no place of a centre stands for zero. -/
instance : GuardedWeights QuantValues where
  getGuarded v i := do
    let (prob, backoff) ← Guarded.element v.codes i
    .ok ⟨v.prob.decode prob, if backoff = 0 then .zero else v.backoff.decode (backoff - 1)⟩
  getGuarded_eq _ _ h := by
    rw [Guarded.element_eq h (0, 0)]
    rfl

end BackoffLM

/-!
# Bisection

A property of positions that holds up to some point and not after it is located by halving: `last`
finds the last position that has it, given that the first is always a candidate. `find?` looks a
value up in a stretch of an increasing array, and `boundary` counts the elements before the point.
-/

namespace BackoffLM.Bisect

/-- The last position of `base .. base + size - 1` where `holds` is true, or `base` when there is
none or no position at all. -/
def last (holds : Nat → Bool) (size base : Nat) : Nat :=
  if size ≤ 1 then base
  else
    let half := size / 2
    last holds (size - half) (if holds (base + half) then base + half else base)
termination_by size

/-- The position of `x` among the elements from `start` up to, not including, `stop`, which
increase. -/
def find? (xs : Array Nat) (x start stop : Nat) : Option Nat :=
  if stop ≤ start then none
  else
    let i := last (fun i => xs.getD i 0 ≤ x) (stop - start) start
    if xs[i]? = some x then some i else none

/-- The number of leading elements that have a property, which holds of a first part only. -/
def boundary {α : Type} (xs : Array α) (holds : α → Bool) : Nat :=
  if xs.isEmpty then 0
  else
    let holdsAt (i : Nat) : Bool := (xs[i]?).any holds
    let i := last holdsAt xs.size 0
    if holdsAt i then i + 1 else i

end BackoffLM.Bisect

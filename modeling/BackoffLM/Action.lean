import BackoffLM.CallError

/-!
# Operations on a state

An operation works on a state and may fail. What it did until then stays, as nothing is undone. A
value that callers share has a lock, which is held while they read or change it. When a panic breaks
off a change, the lock is poisoned and refuses everyone from then on.
-/

namespace BackoffLM

variable {σ τ α β : Type}

/-- An operation on a state, which may fail. -/
abbrev Action (σ α : Type) := ExceptT CallError (StateM σ) α

/-- Whether an operation ended in a panic. -/
def Action.isPanic : Except CallError α → Bool
  | .error (.panicked _) => true
  | _ => false

/-- Does an operation on a part of a state. -/
def Action.within (part : σ → τ) (replace : τ → σ → σ) (body : Action τ α) : Action σ α :=
  ExceptT.mk fun s =>
    let (answer, changed) := body.run.run (part s)
    (answer, replace changed s)

/-- A value and its lock. -/
structure Locked (α : Type) where
  value : α
  poisoned : Bool

namespace Locked

/-- A value whose lock nobody poisoned. -/
def sound (value : α) : Locked α := ⟨value, false⟩

/-- The value, for reading. -/
def read (l : Locked α) (refusal : CallError) : Except CallError α :=
  if l.poisoned then .error refusal else .ok l.value

/-- Does an operation on the value, and poisons the lock if that panics. -/
def change (refusal : CallError) (body : Action α β) : Action (Locked α) β :=
  ExceptT.mk fun l =>
    if l.poisoned then (.error refusal, l)
    else
      let (answer, value) := body.run.run l.value
      (answer, ⟨value, Action.isPanic answer⟩)

end Locked

end BackoffLM

import BackoffLM.Settings

/-!
# The settings in force

A process has one value of settings, fixed when it is first read: the custom one given before, or
else the standard one. Custom settings can be given once, also after the value is fixed, but then
they have no effect.
-/

namespace BackoffLM.Settings

/-- Where a process keeps its settings. -/
structure Cell where
  /-- The custom settings given. -/
  custom : Option Settings
  /-- The value fixed by the first reading. -/
  fixed : Option Settings
  deriving DecidableEq, Repr, Inhabited

namespace Cell

/-- Nothing given and nothing read. -/
def fresh : Cell := ⟨none, none⟩

/-- The value that a reading gives. -/
def value (c : Cell) : Settings := c.fixed.getD (c.custom.getD .standard)

/-- Reads the settings, which fixes them. -/
def read (c : Cell) : Settings × Cell := (c.value, { c with fixed := some c.value })

/-- Gives custom settings. -/
def give (c : Cell) (settings : Settings) : Except SettingsFault Cell :=
  match c.custom with
  | some _ => .error .alreadySet
  | none => .ok { c with custom := some settings }

end Cell

/-- A computation that may read the settings. -/
abbrev Reading (α : Type) := StateM Cell α

/-- The settings, fixed from now on. -/
def inForce : Reading Settings := modifyGet Cell.read

/-- The scoring of unknown words in force, at a cost of its own if one is given. -/
def oovInForce (cost : Option LogProb) : Reading OovScoring := do
  let oov := (← inForce).oov
  return { oov with fakeCost := cost.getD oov.fakeCost }

end BackoffLM.Settings

import BackoffLM.Model
import BackoffLM.Settings.Cell

/-!
# Building models under settings

The settings say how many bits a quantized weight takes. They are read only when there are weights
to quantize, which are those of order 2 and more in a structure of a quantized kind.
-/

namespace BackoffLM.Model

variable {S : Type} [StoredIndex S]

/-- The model of n-grams, under the settings in force. -/
def build (a : Arpa) : Settings.Reading (Model S) := do
  if (StoredIndex.kind S).isQuantized && !a.ngrams.isEmpty then
    return ofArpa (← Settings.inForce).bits a
  else return ofArpa Settings.standard.bits a

end BackoffLM.Model

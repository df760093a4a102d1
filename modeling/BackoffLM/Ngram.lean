import BackoffLM.LogProb

/-!
# N-grams and their weights

A backoff model stores, for sequences of words of length 1 up to its order, the log probability of
the last word after the others and a backoff weight that is added when a longer sequence is missing.
Words are numbered by their place in the model's vocabulary, and number 0 is the unknown word.
-/

namespace BackoffLM

/-- The number of a word in a vocabulary. -/
abbrev WordId := Nat

/-- The number of `<unk>` in every vocabulary. -/
def unknownId : WordId := 0

/-- The text that stands for every word a model does not know. -/
def unknownToken : String := "<unk>"

/-- The marker before the first word of a sentence. -/
def beginToken : String := "<s>"

/-- The marker after the last word of a sentence. -/
def endToken : String := "</s>"

/-- The greatest order of a model. -/
def maxOrder : Nat := 6

/-- The order of a model with n-grams of `levels` lengths above one: the length of the longest.
Orders are bytes, as files hold them, and wrap around. -/
def orderOf (levels : Nat) : Nat := (levels + 1) % 256

/-- The log probability of an n-gram's last word after the others, and the weight added when the
n-gram is a context that a longer one would have needed. -/
structure Weights where
  prob : LogProb
  backoff : LogProb
  deriving DecidableEq, Repr, Inhabited

/-- The weights without the backoff, as at the highest order. -/
def Weights.withoutBackoff (w : Weights) : Weights := { w with backoff := .zero }

/-- The backoff only below the highest order. -/
def Weights.keepBackoff (hasBackoff : Bool) (w : Weights) : Weights :=
  if hasBackoff then w else w.withoutBackoff

theorem Weights.prob_keepBackoff (hasBackoff : Bool) (w : Weights) :
    (w.keepBackoff hasBackoff).prob = w.prob := by
  cases hasBackoff <;> rfl

theorem Weights.backoff_keepBackoff (hasBackoff : Bool) (w : Weights) :
    (w.keepBackoff hasBackoff).backoff = if hasBackoff then w.backoff else .zero := by
  cases hasBackoff <;> rfl

/-- The weights of `<unk>` in a model that does not define it: log probability -100. -/
def Weights.undefined : Weights := ⟨⟨0xC2C80000⟩, .zero⟩

/-- An n-gram of order 2 or more, its words in reading order. -/
structure Entry where
  words : List WordId
  weights : Weights
  deriving DecidableEq, Repr, Inhabited

end BackoffLM

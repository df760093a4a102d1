import BackoffLM.Ngram

/-!
# Scoring words that a model does not know

Callers name words by numbers of their own, of which 0 is reserved for "unknown word". A word that
counts as unknown is not scored by the model but costs a fixed log probability. Which words count is
the policy.
-/

namespace BackoffLM

/-- A caller's number for a word. -/
abbrev ExternalId := Int

/-- The caller's number for "unknown word". -/
def reservedId : ExternalId := 0

/-- Which words cost the fixed log probability. -/
inductive OovPolicy where
  /-- Every word whose number leads to `<unk>`. -/
  | remappedUnknown
  /-- Only the reserved number; other unknown words are scored as `<unk>`. -/
  | reservedIdOnly
  deriving DecidableEq, Repr, Inhabited

/-- The name of a policy in settings. -/
def OovPolicy.name : OovPolicy → String
  | .remappedUnknown => "remapped-unknown"
  | .reservedIdOnly => "reserved-id-only"

/-- The name of a policy in reports. -/
def OovPolicy.title : OovPolicy → String
  | .remappedUnknown => "RemappedUnknown"
  | .reservedIdOnly => "ReservedIdOnly"

/-- The policy with a name. -/
def OovPolicy.ofName? (name : String) : Option OovPolicy :=
  [remappedUnknown, reservedIdOnly].find? fun policy => policy.name == name

/-- How unknown words are scored. -/
structure OovScoring where
  /-- The log probability of a word that counts as unknown. -/
  fakeCost : LogProb
  policy : OovPolicy
  deriving DecidableEq, Repr, Inhabited

/-- Whether a word, by its external number and the one that it leads to, counts as unknown. -/
def OovScoring.isFake (oov : OovScoring) (external : ExternalId) (word : WordId) : Bool :=
  match oov.policy with
  | .remappedUnknown => word == unknownId
  | .reservedIdOnly => external == reservedId

end BackoffLM

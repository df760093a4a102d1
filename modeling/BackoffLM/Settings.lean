import BackoffLM.Oov
import BackoffLM.SentenceOptions

/-!
# Settings

Settings say how unknown words are scored, how sentences are prepared, and how many bits a quantized
weight takes. `Settings.check` refuses values out of range. `Settings.standardText` is the text of
the settings that hold unless others are given, and `Settings.standard` their values.
-/

namespace BackoffLM

/-- The settings of a process. -/
structure Settings where
  oov : OovScoring
  sentence : SentenceOptions
  /-- The width of quantized weights. -/
  bits : Nat
  deriving DecidableEq, Repr, Inhabited

/-- Why settings are refused. -/
inductive SettingsFault where
  /-- The text is no TOML, or lacks a setting or has one of a wrong type. -/
  | unreadable
  | badFakeCost
  | emptyDelimiter
  | badBits
  /-- Settings were given before. -/
  | alreadySet
  deriving DecidableEq, Repr

/-- The wording of a refusal; the details of text that cannot be read are left out. -/
def SettingsFault.message : SettingsFault → String
  | .unreadable => "TOML parse error"
  | .badFakeCost => "invalid value for oov.fake_cost: must be a finite log10 value <= 0"
  | .emptyDelimiter => "invalid value for sentence.named_entity_delimiter: must not be empty"
  | .badBits => "invalid value for quantize.bits: must be between 1 and 8"
  | .alreadySet => "settings already initialized"

namespace Settings

/-- The settings that hold unless others are given. -/
def standard : Settings where
  oov := ⟨⟨0xC2C80000⟩, .remappedUnknown⟩
  sentence := ⟨true, true, "_", true⟩
  bits := 8

/-- Whether all values are in range. -/
def check (s : Settings) : Except SettingsFault Settings :=
  if !s.oov.fakeCost.isFinite || LogProb.numLt .zero s.oov.fakeCost then .error .badFakeCost
  else if s.sentence.splitNamedEntities && s.sentence.delimiter.isEmpty then
    .error .emptyDelimiter
  else if s.bits < 1 ∨ 8 < s.bits then .error .badBits
  else .ok s

end Settings

end BackoffLM

import BackoffLM.Settings.Cell
import BackoffLM.Toml.Document

/-!
# Reading settings

Settings are a TOML document with the sections `oov`, `sentence` and `quantize`. Each of them must
have all its fields; what else the document holds is not looked at. A section may also be an array
of the values of its fields in order. `Settings.read` reads and checks a text, and `standardText`
is the text of the standard settings.
-/

namespace BackoffLM.Settings

open Toml (Value Entries)

/-- The text of the standard settings. -/
def standardText : String :=
  "# Default settings for ngram-core.\n" ++
  "# Override with settings::init_custom() before first use.\n" ++
  "\n" ++
  "[oov]\n" ++
  "# Log10 cost used for words flagged as out-of-vocabulary.\n" ++
  "fake_cost = -100.0\n" ++
  "# \"remapped-unknown\": any slot whose mapped id is <unk> gets fake_cost.\n" ++
  "# \"reserved-id-only\": only the reserved external id 0 gets fake_cost;\n" ++
  "# other unknown words are scored by the model.\n" ++
  "policy = \"remapped-unknown\"\n" ++
  "\n" ++
  "[sentence]\n" ++
  "lowercase = true\n" ++
  "split_named_entities = true\n" ++
  "named_entity_delimiter = \"_\"\n" ++
  "sentence_markers = true\n" ++
  "\n" ++
  "[quantize]\n" ++
  "# Bits per quantized value (bins = 2^bits).\n" ++
  "bits = 8\n"

/-! ## Values -/

/-- A log probability, from a number of any kind. -/
def logProbOf : Value → Option LogProb
  | .number d => some (.ofDouble d.toDouble)
  | .integer n => some ⟨(Numeral.Decimal.finite (n < 0) n.natAbs 0).toSingle⟩
  | _ => none

/-- A truth value. -/
def booleanOf : Value → Option Bool
  | .boolean b => some b
  | _ => none

/-- A text. -/
def textOf : Value → Option String
  | .text text => some text
  | _ => none

/-- A number of one byte. -/
def byteOf : Value → Option Nat
  | .integer n => if 0 ≤ n ∧ n ≤ 255 then some n.toNat else none
  | _ => none

/-- A table or an array with nothing in it. -/
def isVoid : Value → Bool
  | .table _ [] => true
  | .array [] => true
  | _ => false

/-- A policy: its name, or a table in which the name alone stands, with nothing in it. -/
def policyOf : Value → Option OovPolicy
  | .text name => OovPolicy.ofName? name
  | .table _ [(name, value)] => if isVoid value then OovPolicy.ofName? name else none
  | _ => none

/-! ## Sections -/

/-- The values of named fields, or the first of an array. -/
def fieldsOf (names : List String) : Value → Option (List Value)
  | .table _ es => names.mapM (Entries.find? es)
  | .array items => if names.length ≤ items.length then some (items.take names.length) else none
  | _ => none

/-- The section on unknown words. -/
def oovOf (v : Value) : Option OovScoring := do
  match ← fieldsOf ["fake_cost", "policy"] v with
  | [cost, policy] => some ⟨← logProbOf cost, ← policyOf policy⟩
  | _ => none

/-- The section on sentences. -/
def sentenceOf (v : Value) : Option SentenceOptions := do
  let names := ["lowercase", "split_named_entities", "named_entity_delimiter", "sentence_markers"]
  match ← fieldsOf names v with
  | [lowercase, split, delimiter, markers] =>
    some ⟨← booleanOf lowercase, ← booleanOf split, ← textOf delimiter, ← booleanOf markers⟩
  | _ => none

/-- The section on quantized weights. -/
def bitsOf (v : Value) : Option Nat := do
  match ← fieldsOf ["bits"] v with
  | [bits] => byteOf bits
  | _ => none

/-- The settings of a document. -/
def ofEntries (es : Entries) : Option Settings := do
  let oov ← oovOf (← es.find? "oov")
  let sentence ← sentenceOf (← es.find? "sentence")
  let bits ← bitsOf (← es.find? "quantize")
  some ⟨oov, sentence, bits⟩

/-- Reads settings, which must be in range. -/
def read (text : String) : Except SettingsFault Settings :=
  match (Toml.read text).bind ofEntries with
  | none => .error .unreadable
  | some settings => settings.check

/-- Gives custom settings as text, which is read before anything else. -/
def giveCustom (text : String) (c : Cell) : Except SettingsFault Cell := do
  let settings ← read text
  c.give settings

end BackoffLM.Settings

import BackoffLM.Command
import BackoffLM.Report
import BackoffLM.Settings.Reader

/-!
# Running commands

An invocation gives an exit code and the text of both output channels. Custom settings are read
first, and a command that fails writes one message and nothing else.
-/

namespace BackoffLM

/-- What an invocation gives. -/
structure Output where
  code : Nat
  out : String
  err : String
  deriving DecidableEq, Repr

namespace Output

/-- Success, with the text written. -/
def text (out : String) : Output := ⟨0, out, ""⟩

/-- Success, with the lines written. -/
def lines (lines : List String) : Output := text (String.join (lines.map (· ++ "\n")))

/-- Failure, with a message. -/
def failure (message : String) : Output := ⟨1, "", message ++ "\n"⟩

end Output

/-- Reads a file as text. -/
def Files.loadText (files : Files) (path : String) : Except FileFault String := do
  let bytes ← files.read path
  match Text.Utf8.decode bytes with
  | .ok cs => .ok (String.ofList cs)
  | .error _ => .error .notText

namespace Command

/-- The lines that describe a model file. -/
def describe (file : String) (header : Option Header) (scorer : Scorer) : List String :=
  let model := scorer.model
  let counts : List UInt64 := (header.map Header.counts).getD []
  ["File:       " ++ file,
    "Format:     " ++ (if header.isSome then "binary" else "ARPA"),
    "Kind:       " ++ model.kind.name,
    s!"Order:      {model.order}",
    s!"Vocabulary: {model.vocabulary.size}"] ++
  counts.zipIdx.map fun (count, i) => s!"  {i + 1}-grams: {count.toNat}"

/-- Describes a model file. -/
def runInfo (files : Files) (file : String) : Settings.Reading Output := do
  match (files.load file).bind Header.recognize with
  | .error e => return .failure s!"Error reading {file}: {e.message}"
  | .ok header =>
    match Scorer.ofFile files file (← Settings.oovInForce none) with
    | .error e => return .failure s!"Error: {e.message}"
    | .ok scorer => return .lines (describe file header scorer)

/-- Scores a sentence given as text. -/
def runScore (files : Files) (file sentence : String) (fakeCost : Option LogProb) (json : Bool) :
    Settings.Reading Output := do
  match Scorer.ofFile files file (← Settings.oovInForce fakeCost) with
  | .error e => return .failure s!"Error: {e.message}"
  | .ok scorer =>
    let scorer := SentenceScorer.ofScorer scorer (← Settings.inForce).sentence
    let tokens := (Text.fields sentence.toList).map String.ofList
    match ((Report.ofTokens tokens).run.run scorer).1 with
    | .error e => return .failure s!"Error: {e.message}"
    | .ok report =>
      return if json then .lines [report.document.render] else .lines report.lines

/-- Scores one word through a registry. -/
def runQuery (files : Files) (file word : String) (context : List String) (order : Int)
    (family : Family) : Output :=
  let query : Action Registry LogProb := do
    Registry.load files order file family.code
    (← get).score word context.reverse
  match (query.run.run .empty).1 with
  | .error e => .failure s!"Error: {e.message}"
  | .ok logProb => .lines [(Numeral.Number.ofLogProb logProb).plain]

/-- Checks a file of settings. -/
def runValidate (files : Files) (file : String) : Output :=
  match files.loadText file with
  | .error e => .failure s!"Error reading {file}: {e.message}"
  | .ok text =>
    match Settings.read text with
    | .error e => .failure s!"Error: {e.message}"
    | .ok settings =>
      let cost := (Numeral.Number.ofLogProb settings.oov.fakeCost).plain
      let policy := settings.oov.policy.title
      .lines [s!"OK: oov.fake_cost={cost}, oov.policy={policy}, quantize.bits={settings.bits}"]

/-- Runs a command. -/
def run (files : Files) : Command → Settings.Reading Output
  | .info file => runInfo files file
  | .score file sentence fakeCost json => runScore files file sentence fakeCost json
  | .query file word context order family =>
    return runQuery files file word context order family
  | .settingsExport => return .text Settings.standardText
  | .settingsValidate file => return runValidate files file

end Command

namespace Invocation

/-- The settings that an invocation runs under, or why there are none. -/
def giveSettings (files : Files) (i : Invocation) : Except Output Settings.Cell :=
  match i.settings with
  | none => .ok .fresh
  | some file =>
    match files.loadText file with
    | .error e => .error (.failure s!"Error reading {file}: {e.message}")
    | .ok text =>
      (Settings.giveCustom text .fresh).mapError fun e =>
        .failure s!"Error in {file}: {e.message}"

/-- Runs a command under its settings. -/
def run (files : Files) (i : Invocation) : Output :=
  match i.giveSettings files with
  | .error output => output
  | .ok cell => ((i.command.run files).run cell).1

end Invocation

end BackoffLM

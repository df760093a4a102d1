import BackoffLM.JsonDocument
import BackoffLM.Sentence

/-!
# Reports on sentences

A report gives the words of a sentence, each scored word with its log probability, and the log
probability, probability and perplexity of the whole. It is written as lines for readers or as a
JSON document.
-/

namespace BackoffLM

/-- The scores of a sentence. -/
structure Report where
  /-- The words of the sentence, prepared. -/
  tokens : List String
  logProb : LogProb
  prob : Float
  perplexity : Float
  /-- The scored words. -/
  words : List (String × LogProb)

namespace Report

/-- Scores a sentence. -/
def ofTokens (tokens : List String) : SentenceScorer.Action Report := do
  let logProb ← SentenceScorer.sentenceLogProb tokens
  let perplexity ← SentenceScorer.perplexity tokens
  let words ← SentenceScorer.wordLogProbs tokens
  return {
    tokens := (← get).options.sentenceWords tokens
    logProb, perplexity, words
    prob := LogScale.toProb logProb.toDouble }

/-- Fills a text up to a width with blanks in front. -/
def padLeft (width : Nat) (text : String) : String :=
  String.ofList (List.replicate (width - text.length) ' ') ++ text

/-- The line of a scored word. -/
def wordLine (scored : String × LogProb) : String :=
  "  " ++ padLeft 10 ((Numeral.Number.ofLogProb scored.2).places 4) ++ "  " ++ scored.1

/-- The report as lines. -/
def lines (r : Report) : List String :=
  ["Tokens:     " ++ String.intercalate " " r.tokens] ++ r.words.map wordLine ++
  ["log10 P:    " ++ (Numeral.Number.ofLogProb r.logProb).places 4,
    "P:          " ++ (Numeral.Number.ofDouble r.prob).exponential,
    "Perplexity: " ++ (Numeral.Number.ofDouble r.perplexity).places 4]

/-- The report as a JSON document. -/
def document (r : Report) : JsonDocument :=
  .object [
    ("tokens", .array (r.tokens.map .text)),
    ("log_prob", .ofLogProb r.logProb),
    ("prob", .ofDouble r.prob),
    ("perplexity", .ofDouble r.perplexity),
    ("words", .array (r.words.map fun (word, logProb) =>
      .object [("word", .text word), ("log_prob", .ofLogProb logProb)]))]

end Report

end BackoffLM

import BackoffLM.Numeral.Integer
import BackoffLM.Numeral.Decimal
import BackoffLM.LogProb
import BackoffLM.Ngram
import BackoffLM.Vocabulary
import BackoffLM.Arpa
import BackoffLM.Text.Utf8
import BackoffLM.LoadError
import BackoffLM.Text.Blank
import BackoffLM.Text.Lines
import BackoffLM.Arpa.Reader
import BackoffLM.Bisect
import BackoffLM.CallError
import BackoffLM.Codec
import BackoffLM.CountModel
import BackoffLM.CountModel.Reader
import BackoffLM.Files
import BackoffLM.Oov
import BackoffLM.IdMap
import BackoffLM.Crc32
import BackoffLM.Kind
import BackoffLM.Container
import BackoffLM.Index
import BackoffLM.Index.Probing
import BackoffLM.Index.Pointers
import BackoffLM.Index.Bins
import BackoffLM.Numeral.Power
import BackoffLM.Index.Values
import BackoffLM.Index.Trie
import BackoffLM.State
import BackoffLM.LanguageModel
import BackoffLM.Model
import BackoffLM.Model.Binary
import BackoffLM.Scorer
import BackoffLM.Registry
import BackoffLM.Command
import BackoffLM.Numeral.Binary
import BackoffLM.Numeral.Shortest
import BackoffLM.Numeral.Layout
import BackoffLM.JsonDocument
import BackoffLM.LogScale
import BackoffLM.Text.CaseTable
import BackoffLM.Text.Lowercase
import BackoffLM.Text.Split
import BackoffLM.SentenceOptions
import BackoffLM.Sentence
import BackoffLM.Report
import BackoffLM.Settings
import BackoffLM.Settings.Cell
import BackoffLM.Toml.Reader
import BackoffLM.Toml.Quoted
import BackoffLM.Toml.Value
import BackoffLM.Toml.Number
import BackoffLM.Toml.Statement
import BackoffLM.Toml.Document
import BackoffLM.Settings.Reader
import BackoffLM.Command.Run
import BackoffLM.Main
import BackoffLM.Model.Build
import BackoffLM.Session
import BackoffLM.Proofs.Scoring.Agreement
import BackoffLM.Proofs.Scoring.Katz
import BackoffLM.Proofs.Safety.Runs
import BackoffLM.Proofs.Arpa.Contents
import BackoffLM.Proofs.Scoring.Sentence
import BackoffLM.Proofs.Files.RoundTrip
import BackoffLM.Proofs.Scoring.Canonical
import BackoffLM.Proofs.Trie.Compression
import BackoffLM.Proofs.Arpa.Truncation
import BackoffLM.Proofs.Arpa.Acceptance
import BackoffLM.Proofs.Counts.Distribution
import BackoffLM.Proofs.Counts.Agreement
import BackoffLM.Proofs.Session.Refusals
import BackoffLM.Proofs.Session.Failures
import BackoffLM.Proofs.Registry.Lifecycle
import BackoffLM.Proofs.Registry.Agreement
import BackoffLM.Proofs.Session.Clients
import BackoffLM.Proofs.Settings.Custom
import BackoffLM.Proofs.Files.Corruption
import BackoffLM.Proofs.Files.Words
import BackoffLM.Proofs.Files.Recognition
import BackoffLM.Proofs.Trie.Exact
import BackoffLM.Proofs.Scoring.History
import BackoffLM.Proofs.Quantization.Lossless
import BackoffLM.Proofs.Arpa.Distinct
import BackoffLM.Proofs.Probing.Insertions
import BackoffLM.Proofs.Counts.Divisors
import BackoffLM.Proofs.Floats.Extended
import BackoffLM.Proofs.Quantization.Range
import BackoffLM.Proofs.Quantization.Code
import BackoffLM.Proofs.Scoring.Alternation
import BackoffLM.Proofs.Scoring.Dependence
import BackoffLM.Proofs.Pointers.Packing
import BackoffLM.Proofs.Quantization.Chunks
import BackoffLM.Proofs.Text.Preparation
import BackoffLM.Proofs.Scoring.Unknown

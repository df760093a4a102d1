import BackoffLM.Ngram
import BackoffLM.Text.Lowercase
import BackoffLM.Text.Split

/-!
# Preparing sentences

Before they are scored, the tokens of a sentence may be split at the delimiter of named entities and
lowercased, and the markers of its beginning and end added where they are missing. The markers
themselves are not lowercased.
-/

namespace BackoffLM

/-- How the tokens of a sentence are prepared. -/
structure SentenceOptions where
  lowercase : Bool
  splitNamedEntities : Bool
  /-- What joins the words of a named entity. -/
  delimiter : String
  /-- Whether missing markers are added. -/
  markers : Bool
  deriving DecidableEq, Repr, Inhabited

namespace SentenceOptions

/-- Lowercases a word that is no marker. -/
def lowerWord (word : String) : String :=
  if word = beginToken ∨ word = endToken then word
  else String.ofList (Text.lowercase word.toList)

/-- The words of a token. -/
def splitToken (o : SentenceOptions) (token : String) : List String :=
  if o.splitNamedEntities then
    (Text.parts o.delimiter.toList token.toList).map String.ofList
  else [token]

/-- Splits and lowercases tokens. -/
def normalize (o : SentenceOptions) (tokens : List String) : List String :=
  (tokens.flatMap o.splitToken).map fun word => if o.lowercase then lowerWord word else word

/-- Adds the markers that are missing. -/
def addMarkers (words : List String) : List String :=
  let opened := if words.head? = some beginToken then words else beginToken :: words
  if opened.getLast? = some endToken then opened else opened ++ [endToken]

/-- The words of a sentence, with the markers if they are wanted. -/
def sentenceWords (o : SentenceOptions) (tokens : List String) : List String :=
  let words := o.normalize tokens
  if o.markers then addMarkers words else words

end SentenceOptions

end BackoffLM

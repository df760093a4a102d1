import BackoffLM.CountModel.Reader
import BackoffLM.Scorer

/-!
# A registry of one model

A registry holds at most one model at a time, loaded from ARPA text or from a count file, and scores
words by their text. A second load is refused until the registry is emptied. Nothing is put into the
registry before all of a file is read. Contexts are given newest word first.
-/

namespace BackoffLM

/-- The families of models that a registry loads. -/
inductive Family where
  /-- A backoff model in ARPA text. -/
  | standard
  /-- A model of raw counts. -/
  | counts
  deriving DecidableEq, Repr

/-- The family that a code names. -/
def Family.ofCode? (code : Int) : Option Family :=
  if code = 0 then some .standard else if code = 1 then some .counts else none

/-- The code of a family. -/
def Family.code : Family → Int
  | .standard => 0
  | .counts => 1

/-- The model of a registry. -/
inductive LoadedModel where
  /-- `hasUnknown` says whether the file itself gives weights to `<unk>`. -/
  | standard (model : LanguageModel) (hasUnknown : Bool)
  | counts (model : CountModel)

namespace LoadedModel

/-- The family of a model. -/
def family : LoadedModel → Family
  | .standard _ _ => .standard
  | .counts _ => .counts

/-- The log probability of a word. A word that a standard model does not know is impossible, unless
the model says how probable such words are. -/
def logProb (loaded : LoadedModel) (word : String) (context : List String) : LogProb :=
  match loaded with
  | .counts model => model.logProb word context
  | .standard model hasUnknown =>
    let vocabulary := model.vocabulary
    if !vocabulary.contains word && !hasUnknown then .negInfinity
    else (model.scoreAfter (context.map vocabulary.idOf) (vocabulary.idOf word)).1.logProb

/-- Reads a model of a family. -/
def ofBytes (family : Family) (order : Nat) (bytes : List UInt8) :
    Except LoadError LoadedModel :=
  match family with
  | .standard => do
    let arpa ← Arpa.ofBytes bytes (some order)
    .ok (.standard (Scorer.modelOfArpa arpa) arpa.hasUnknown)
  | .counts => do
    let model ← CountModel.ofBytes bytes order
    .ok (.counts model)

end LoadedModel

/-- A place for one model. -/
structure Registry where
  loaded : Option LoadedModel

namespace Registry

/-- No model. -/
def empty : Registry := ⟨none⟩

/-- Whether there is a model. -/
def isLoaded (r : Registry) : Bool := r.loaded.isSome

/-- The greatest order that a load takes. -/
def orderLimit : Nat := 255

/-- Reads the model at a path. -/
def read (files : Files) (family : Family) (order : Nat) (path : String) :
    Except LoadError LoadedModel :=
  if path.isEmpty then .error (.file .emptyName)
  else do
    let bytes ← files.load path
    LoadedModel.ofBytes family (min order orderLimit) bytes

/-- Reads the model at a path once the family and the order make sense. -/
def fetch (files : Files) (order : Int) (path : String) (code : Int) :
    Except CallError LoadedModel :=
  match Family.ofCode? code with
  | none => .error (.unknownFamily code)
  | some family =>
    if order < 1 then .error (.invalidOrder order)
    else (read files family order.toNat path).mapError (.unreadable path)

/-- Loads the model at a path into an empty registry. -/
def load (files : Files) (order : Int) (path : String) (code : Int) : Action Registry Unit := do
  if (← get).isLoaded then throw .alreadyLoaded
  else
    let loaded ← fetch files order path code
    set (⟨some loaded⟩ : Registry)

/-- The log probability of a word after a context. -/
def score (r : Registry) (word : String) (context : List String) : Except CallError LogProb :=
  match r.loaded with
  | none => .error .notLoaded
  | some loaded =>
    if word.isEmpty then .error .emptyWord
    else
      match context.findIdx? String.isEmpty with
      | some place => .error (.emptyContextWord place)
      | none => .ok (loaded.logProb word context)

/-- Releases the model. -/
def teardown (_ : Registry) : Registry := empty

end Registry

end BackoffLM

import BackoffLM.Registry
import BackoffLM.Settings.Cell
import Std.Data.ExtHashMap

/-!
# Sessions

A session serves calls of a binary interface: models under handles, one registry, and the message of
the last failure. A caller passes text as bytes that end at the first NUL, and may pass nothing for
any pointer. A call gives a status, and what it writes at the place that the caller named.

Most calls clear the last message first and set it again when they fail (`Session.run`). A call that
lacks its text or its place for a result is refused before that, and leaves the message alone.

Models and the registry are behind locks, as other threads may call too. A call works on the session
step by step and may fail at any of them (`Scene`), and what it did until then stays.
-/

namespace BackoffLM

/-! ## Arguments -/

/-- Text as callers pass it: bytes up to the first NUL, or nothing. -/
abbrev ForeignText := Option (List UInt8)

/-- The text, unless there is none or it is not UTF-8. -/
def ForeignText.read (text : ForeignText) : Option String := do
  let bytes ← text
  match Text.Utf8.decode (bytes.takeWhile (· != 0)) with
  | .ok cs => some (String.ofList cs)
  | .error _ => none

/-- An array as callers pass it: the items, or nothing, and how many of them count. -/
structure ForeignArray (α : Type) where
  items : Option (List α)
  length : Nat

/-- The items, unless some should count and there are none. -/
def ForeignArray.read {α : Type} (array : ForeignArray α) : Option (List α) :=
  if array.length = 0 then some [] else array.items.map (List.take array.length)

/-- The number of a loaded model in a session. Number 0 is never one. -/
abbrev Handle := Nat

/-! Handles are compared as the numbers they are, which makes them keys of a map. -/

instance Handle.equivBEq : EquivBEq Handle := instEquivBEqOfLawfulBEq

instance Handle.lawfulHashable : LawfulHashable Handle := instLawfulHashableOfLawfulBEq

/-- The calls of the interface. `out` says whether there is a place for the result. -/
inductive Call where
  | construct (path : ForeignText) (fakeCost : LogProb) (out : Bool)
  | destroy (handle : Handle)
  | order (handle : Handle)
  | register (handle : Handle) (word : ForeignText) (id : ExternalId) (out : Bool)
  | prob (handle : Handle) (ids : ForeignArray ExternalId) (out : Bool)
  | probString (handle : Handle) (ids : ForeignArray ExternalId) (start : Int) (out : Bool)
  | load (order : Int) (path : ForeignText) (family : Int)
  | score (word : ForeignText) (context : ForeignArray ForeignText) (out : Bool)
  | finalize

/-! ## Replies -/

/-- How a call ended. -/
inductive Status where
  | ok
  | refused (group : CallError.Group)
  deriving DecidableEq, Repr

/-- The code of a status. -/
def Status.code : Status → Nat
  | .ok => 0
  | .refused .format => 1
  | .refused .state => 2
  | .refused .argument => 3
  | .refused .file => 4
  | .refused .limit => 5

/-- What a call writes for its caller. -/
inductive Written where
  | nothing
  | handle (handle : Handle)
  | order (order : Nat)
  /-- Whether a number was registered before. -/
  | known (known : Bool)
  | prob (prob : LogProb)
  deriving DecidableEq, Repr

/-- What a call gives. -/
structure Reply where
  status : Status
  written : Written
  deriving DecidableEq, Repr

/-! ## Sessions -/

/-- The models of a session, its registry and its last message. -/
structure Session where
  scorers : Std.ExtHashMap Handle (Locked Scorer)
  /-- The handle of the next model. -/
  nextHandle : Handle
  registry : Locked Registry
  lastError : Option String

namespace Session

/-- The version of the interface. -/
def version : String := "0.1.0"

/-- No models, and no failure yet. -/
def empty : Session := ⟨∅, 1, .sound .empty, none⟩

/-- Puts a model under the next handle. -/
def add (s : Session) (scorer : Scorer) : Session :=
  { s with
    scorers := s.scorers.insert s.nextHandle (.sound scorer)
    nextHandle := s.nextHandle + 1 }

/-- Puts a model with its lock under a handle. -/
def put (s : Session) (handle : Handle) (model : Locked Scorer) : Session :=
  { s with scorers := s.scorers.insert handle model }

/-- Releases the model under a handle, if there is one. -/
def release (s : Session) (handle : Handle) : Session :=
  { s with scorers := s.scorers.erase handle }

/-- A session with another last message. -/
def withMessage (s : Session) (message : Option String) : Session :=
  { s with lastError := message }

/-- A message as callers get it, with a blank for each NUL. -/
def foreignMessage (message : String) : String :=
  message.map fun c => if c = '\x00' then ' ' else c

end Session

/-! ## Arguments that calls read -/

/-- An array argument of numbers. -/
def readIds (ids : ForeignArray ExternalId) : Except CallError (List ExternalId) :=
  match ids.read with
  | some ids => .ok ids
  | none => .error .nullIds

/-- The words of a context, from place `i` on. -/
def readContext : (i : Nat) → List ForeignText → Except CallError (List String)
  | _, [] => .ok []
  | i, word :: words =>
    match word.read with
    | none => .error (.nullContextWord i)
    | some text => (text :: ·) <$> readContext (i + 1) words

/-- The log probability of a word after a context, with both as callers pass them. -/
def Registry.scoreForeign (r : Registry) (word : ForeignText)
    (context : ForeignArray ForeignText) : Except CallError LogProb :=
  if !r.isLoaded then .error .notLoaded
  else
    match word.read, context.read with
    | none, _ => .error .nullWord
    | some _, none => .error .nullContext
    | some word, some words => do
      let words ← readContext 0 words
      r.score word words

/-! ## Calls at work -/

/-- What a call works on: the session, the settings, and the caller's place for the result. -/
structure Scene where
  session : Session
  settings : Settings.Cell
  written : Written

namespace Scene

/-- Writes a result for the caller. -/
def write (written : Written) : Action Scene Unit := modify fun scene => { scene with written }

/-- The scoring of unknown words in force, at a cost of its own. -/
def oovInForce (fakeCost : LogProb) : Action Scene OovScoring :=
  Action.within Scene.settings (fun settings scene => { scene with settings })
    (liftM (Settings.oovInForce (some fakeCost)))

/-- The model under a handle, with its lock. -/
def modelAt (handle : Handle) : Action Scene (Locked Scorer) := do
  match (← get).session.scorers[handle]? with
  | some model => return model
  | none => throw .nullHandle

/-- Changes the model under a handle. -/
def changeModel {α : Type} (handle : Handle) (body : Action Scorer α) : Action Scene α := do
  let model ← modelAt handle
  Action.within (fun _ => model)
    (fun model scene => { scene with session := scene.session.put handle model })
    (Locked.change .modelPoisoned body)

/-- Works on the registry. Its lock is held for changing even if the registry is only read. -/
def withRegistry {α : Type} (body : Action Registry α) : Action Scene α :=
  Action.within (fun scene => scene.session.registry)
    (fun registry scene => { scene with session.registry := registry })
    (Locked.change .registryPoisoned body)

/-- Loads a model and puts it under a new handle. -/
def construct (files : Files) (path : String) (fakeCost : LogProb) : Action Scene Unit := do
  let oov ← oovInForce fakeCost
  let scorer ← Scorer.ofFile files path oov
  let scene ← get
  set { scene with session := scene.session.add scorer }
  write (.handle scene.session.nextHandle)

/-- The order of a model. -/
def order (handle : Handle) : Action Scene Unit := do
  let model ← modelAt handle
  let scorer ← model.read .modelPoisoned
  write (.order scorer.model.order)

/-- Registers a word with a model. -/
def register (handle : Handle) (word : String) (id : ExternalId) (memory : Memory) :
    Action Scene Unit := do
  let known ← changeModel handle (Scorer.register word id memory)
  write (.known known)

/-- Scores the last of some numbers. -/
def prob (handle : Handle) (ids : ForeignArray ExternalId) : Action Scene Unit := do
  let model ← modelAt handle
  let ids ← readIds ids
  let scorer ← model.read .modelPoisoned
  write (.prob (scorer.prob ids))

/-- Scores numbers from a place on. -/
def probString (handle : Handle) (ids : ForeignArray ExternalId) (start : Int) :
    Action Scene Unit := do
  let model ← modelAt handle
  let ids ← readIds ids
  if start < 0 then throw (.negativeStart start)
  else
    let scorer ← model.read .modelPoisoned
    write (.prob (scorer.probString ids start.toNat))

/-- Loads the model of the registry. A path that is no text counts as empty. -/
def load (files : Files) (order : Int) (path : ForeignText) (family : Int) : Action Scene Unit :=
  withRegistry (Registry.load files order (path.read.getD "") family)

/-- Scores a word with the model of the registry. -/
def score (word : ForeignText) (context : ForeignArray ForeignText) : Action Scene Unit := do
  let prob ← withRegistry do (← get).scoreForeign word context
  write (.prob prob)

/-- Releases the model of the registry. -/
def finalize : Action Scene Unit := withRegistry (modify Registry.teardown)

end Scene

/-! ## Serving calls -/

namespace Session

/-- Makes a call: the message is cleared, and is that of the failure if there is one. What the call
did until it failed stays. -/
def run (s : Session) (body : Action Scene Unit) : Settings.Reading (Reply × Session) :=
  fun settings =>
    match body.run.run ⟨s.withMessage none, settings, .nothing⟩ with
    | (.ok (), scene) => ((⟨.ok, scene.written⟩, scene.session), scene.settings)
    | (.error e, scene) =>
      ((⟨.refused e.group, scene.written⟩,
        scene.session.withMessage (some (foreignMessage e.message))), scene.settings)

/-- Ends a call that lacks its text or its place for a result. -/
def decline (s : Session) : Reply × Session := (⟨.refused .argument, .nothing⟩, s)

/-- Serves a call, with the files and the memory that it finds. -/
def serve (files : Files) (s : Session) (call : Call) (memory : Memory := .ample) :
    Settings.Reading (Reply × Session) :=
  match call with
  | .construct path fakeCost out =>
    match path.read, out with
    | some path, true => s.run (Scene.construct files path fakeCost)
    | _, _ => return s.decline
  | .destroy handle => return (⟨.ok, .nothing⟩, s.release handle)
  | .order handle => s.run (Scene.order handle)
  | .register handle word id out =>
    match word.read, out with
    | some word, true => s.run (Scene.register handle word id memory)
    | _, _ => return s.decline
  | .prob handle ids out => if out then s.run (Scene.prob handle ids) else return s.decline
  | .probString handle ids start out =>
    if out then s.run (Scene.probString handle ids start) else return s.decline
  | .load order path family => s.run (Scene.load files order path family)
  | .score word context out => if out then s.run (Scene.score word context) else return s.decline
  | .finalize => s.run Scene.finalize

end Session

end BackoffLM

import BackoffLM.LoadError

/-!
# Why a call on a model is refused

Callers load models, number words and ask for scores. A refusal belongs to one of five groups
(`CallError.Group`): a model file of a kind that no reader knows, a call out of turn, an argument
that makes no sense, a file that cannot be read, and a limit that was reached or a fault of the
program itself. `CallError.message` words each cause after its group. A panic is a cause like the
others, except for the locks that it leaves poisoned.
-/

namespace BackoffLM

/-- Why a call is refused. -/
inductive CallError where
  /-- The header of a binary file names no kind. -/
  | unknownKind (code : UInt8) (path : String)
  /-- The file at a path cannot be read as a model. -/
  | unreadable (path : String) (cause : LoadError)
  | alreadyLoaded
  | notLoaded
  | reservedId (id : Int)
  | nullHandle
  | nullIds
  | negativeStart (start : Int)
  | unknownFamily (code : Int)
  | invalidOrder (order : Int)
  | emptyWord
  | nullWord
  | nullContext
  | emptyContextWord (place : Nat)
  | nullContextWord (place : Nat)
  | idsExhausted
  /-- There is no room for a table of callers' numbers, for a reason that the system words. -/
  | noRoom (size : Nat) (reason : String)
  | modelPoisoned
  | registryPoisoned
  /-- A panic, in the words of the place where it began. -/
  | panicked (message : String)
  deriving DecidableEq, Repr

namespace CallError

/-- The groups of causes. -/
inductive Group where
  | format
  | state
  | argument
  | file
  | limit
  deriving DecidableEq, Repr

/-- The group of a cause. -/
def group : CallError → Group
  | .unknownKind _ _ => .format
  | .unreadable _ _ => .file
  | .alreadyLoaded | .notLoaded => .state
  | .idsExhausted | .noRoom _ _ | .modelPoisoned | .registryPoisoned | .panicked _ => .limit
  | .reservedId _ | .nullHandle | .nullIds | .negativeStart _ | .unknownFamily _
  | .invalidOrder _ | .emptyWord | .nullWord | .nullContext | .emptyContextWord _
  | .nullContextWord _ => .argument

/-- The wording of a refusal. -/
def message : CallError → String
  | .unknownKind code path => s!"unrecognized model format {code.toNat} in file {path}"
  | .unreadable path cause => s!"problem reading LM {path}: {cause.message}"
  | .alreadyLoaded => "illegal state: LM already loaded"
  | .notLoaded => "illegal state: LM not loaded"
  | .reservedId id => s!"invalid argument: external id {id} is reserved or negative"
  | .nullHandle => "invalid argument: null model handle"
  | .nullIds => "invalid argument: null id array"
  | .negativeStart start => s!"invalid argument: negative start {start}"
  | .unknownFamily code => s!"invalid argument: LM type {code} not supported"
  | .invalidOrder order => s!"invalid argument: invalid order {order}"
  | .emptyWord => "invalid argument: word is empty"
  | .nullWord => "invalid argument: word is null"
  | .nullContext => "invalid argument: null context array"
  | .emptyContextWord place => s!"invalid argument: context entry {place} is empty"
  | .nullContextWord place => s!"invalid argument: context entry {place} is null"
  | .idsExhausted => "internal fault: external id space exhausted"
  | .noRoom size reason => s!"internal fault: cannot grow vocabulary map to {size}: {reason}"
  | .modelPoisoned => "internal fault: model lock poisoned"
  | .registryPoisoned => "internal fault: registry lock poisoned"
  | .panicked message => s!"internal fault: {message}"

end CallError

end BackoffLM

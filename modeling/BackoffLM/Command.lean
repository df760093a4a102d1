import BackoffLM.Registry

/-!
# Commands of the tool

The tool describes a model file, scores a sentence, asks a registry for one word, and writes or
checks settings. `Invocation.ofArgs?` reads a command line. The settings may be named before the
command. After the command's name its options stand anywhere among the other arguments, with their
value in the next argument or after an equals sign, and after `--` there are no more options. Each
option stands once on each side of the command's name, and settings named after it win.
-/

namespace BackoffLM

/-- What the tool is asked for. -/
inductive Command where
  | info (file : String)
  | score (file sentence : String) (fakeCost : Option LogProb) (json : Bool)
  /-- The context is in reading order. -/
  | query (file word : String) (context : List String) (order : Int) (family : Family)
  | settingsExport
  | settingsValidate (file : String)
  deriving DecidableEq, Repr

/-- A command, and the file of the settings that it runs under. -/
structure Invocation where
  settings : Option String
  command : Command
  deriving DecidableEq, Repr

namespace Invocation

/-- The order of a query that names none. -/
def defaultOrder : Int := 3

/-- Arguments sorted into options and others. -/
structure Arguments where
  /-- Options with their values. -/
  options : List (String × String)
  /-- The other arguments. -/
  others : List String
  deriving DecidableEq, Repr

/-- The options that have a value. -/
def valued : List String := ["--settings", "--fake-oov-cost", "--order", "--kind"]

/-- The options that have none. -/
def flags : List String := ["--json"]

/-- An argument that looks like an option. -/
def looksLikeOption (arg : String) : Bool := arg.startsWith "-" && arg != "-"

/-- Whether characters are the rest of a number after its sign: digits, then perhaps a point and
digits, then perhaps an `e` and digits. The exponent has no sign. -/
def isUnsigned (cs : List Char) : Bool :=
  let digits := cs.takeWhile Char.isDigit
  let fraction :=
    match cs.dropWhile Char.isDigit with
    | '.' :: rest => rest.dropWhile Char.isDigit
    | rest => rest
  !digits.isEmpty &&
    match fraction with
    | [] => true
    | 'e' :: exponent => !exponent.isEmpty && exponent.all Char.isDigit
    | _ => false

/-- Whether an argument is a negative number. -/
def isNegative (arg : String) : Bool :=
  match arg.toList with
  | '-' :: rest => isUnsigned rest
  | _ => false

/-- Whether the next argument can be the value of an option: a negative number can be a cost. -/
def canBeValue (option arg : String) : Bool :=
  !looksLikeOption arg || (option == "--fake-oov-cost" && isNegative arg)

/-- Splits an argument at its first equals sign. -/
def splitEquals (arg : String) : List Char × Option (List Char) :=
  let name := arg.toList.takeWhile (· ≠ '=')
  match arg.toList.dropWhile (· ≠ '=') with
  | [] => (name, none)
  | _ :: value => (name, some value)

/-- Sorts arguments; none when an option is unknown or lacks its value. -/
def Arguments.ofList? : List String → Option Arguments
  | [] => some ⟨[], []⟩
  | arg :: args =>
    if arg = "--" then some ⟨[], args⟩
    else if looksLikeOption arg then
      let (name, value) := splitEquals arg
      let name := String.ofList name
      if name ∈ flags ∧ value = none then
        (ofList? args).map fun a => { a with options := (name, "") :: a.options }
      else if name ∈ valued then
        match value, args with
        | some value, args =>
          (ofList? args).map fun a =>
            { a with options := (name, String.ofList value) :: a.options }
        | none, next :: args =>
          if canBeValue name next then
            (ofList? args).map fun a => { a with options := (name, next) :: a.options }
          else none
        | none, [] => none
      else none
    else (ofList? args).map fun a => { a with others := arg :: a.others }

/-- Whether no option stands twice, and all are among those allowed. -/
def Arguments.allows (a : Arguments) (names : List String) : Bool :=
  let used := a.options.map Prod.fst
  used.Nodup && used.all fun name => name == "--settings" || names.contains name

/-- A whole number of 32 bits with a sign. -/
def readOrder? (text : String) : Option Int :=
  match text.toList with
  | '-' :: digits =>
    if digits.head? = some '+' then none
    else (Numeral.readNat 0x80000000 digits).toOption.map fun n => -Int.ofNat n
  | digits => (Numeral.readNat 0x7FFFFFFF digits).toOption.map Int.ofNat

/-- The family that a query names. -/
def readFamily? (name : String) : Option Family :=
  if name = "standard" then some .standard else if name = "count" then some .counts else none

/-- The value of an option, read, or what holds without it; none when it cannot be read. -/
def Arguments.option? {α : Type} (a : Arguments) (name : String) (read : String → Option α)
    (absent : α) : Option α :=
  match a.options.lookup name with
  | none => some absent
  | some text => read text

/-- The command of a name with its arguments. -/
def Arguments.command? (name : String) (a : Arguments) : Option Command :=
  match name, a.others with
  | "info", [file] => if a.allows [] then some (.info file) else none
  | "score", [file, sentence] => do
    let cost ← a.option? "--fake-oov-cost" (fun text => (LogProb.read? text.toList).map some) none
    if a.allows ["--fake-oov-cost", "--json"] then
      some (.score file sentence cost (a.options.lookup "--json").isSome)
    else none
  | "query", file :: word :: context => do
    let order ← a.option? "--order" readOrder? defaultOrder
    let family ← a.option? "--kind" readFamily? .standard
    if a.allows ["--order", "--kind"] then some (.query file word context order family) else none
  | "settings-export", [] => if a.allows [] then some .settingsExport else none
  | "settings-validate", [file] => if a.allows [] then some (.settingsValidate file) else none
  | _, _ => none

/-- Reads the command's name and what follows it, under settings named before it. -/
def ofCommand? (settings : Option String) : List String → Option Invocation
  | [] => none
  | name :: args => do
    let a ← Arguments.ofList? args
    let command ← a.command? name
    some ⟨a.options.lookup "--settings" <|> settings, command⟩

/-- Reads a command line. -/
def ofArgs? : List String → Option Invocation
  | "--settings" :: file :: args =>
    if canBeValue "--settings" file then ofCommand? (some file) args else none
  | arg :: args =>
    let (name, value) := splitEquals arg
    match value with
    | some file =>
      if String.ofList name = "--settings" then ofCommand? (some (String.ofList file)) args
      else none
    | none => ofCommand? none (arg :: args)
  | [] => none

/-- The files that an invocation reads. -/
def files (i : Invocation) : List String :=
  let file : List String :=
    match i.command with
    | .info file | .score file _ _ _ | .query file _ _ _ _ | .settingsValidate file => [file]
    | .settingsExport => []
  i.settings.toList ++ file

end Invocation

end BackoffLM

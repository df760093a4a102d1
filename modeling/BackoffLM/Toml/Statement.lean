import BackoffLM.Toml.Number

/-!
# Statements of a TOML document

A statement opens a table, opens an element of an array of tables, or gives a value to a key. A
statement takes a line, but quoted text and arrays may run over several. Values in brackets and
braces nest up to a limit, and so do the parts of a key.
-/

namespace BackoffLM.Toml

/-- A key of one or more parts. -/
structure Key where
  /-- The parts before the last. -/
  path : List String
  name : String
  deriving DecidableEq, Repr

/-- The whole key as a path. -/
def Key.parts (k : Key) : List String := k.path ++ [k.name]

/-- What a line says. -/
inductive Statement where
  | table (key : Key)
  | element (key : Key)
  | pair (key : Key) (value : Value)

/-- How deep values may nest, and how many parts a key may have. -/
def depthLimit : Nat := 79

/-! ## Keys -/

/-- A character of a key without quotes. -/
def isBare (c : Char) : Bool := c.isAlphanum || c == '-' || c == '_'

/-- Reads one part of a key. -/
def readPartOfKey : Reader String
  | [] => none
  | c :: s =>
    if c = quote ∨ c = apostrophe then
      (readShort c s).map fun (text, rest) => (String.ofList text, rest)
    else if isBare c then
      some (String.ofList ((c :: s).takeWhile isBare), (c :: s).dropWhile isBare)
    else none

/-- Reads a key with the blanks around its parts. -/
def readKey (s : List Char) : Option (Key × List Char) :=
  let part (s : List Char) : Option (String × List Char) :=
    (readPartOfKey (skipSpace s)).map fun (text, rest) => (text, skipSpace rest)
  let (parts, rest) := separated '.' part s
  match parts.getLast? with
  | none => none
  | some name =>
    if depthLimit < parts.length then none else some (⟨parts.dropLast, name⟩, rest)

/-! ## Values -/

/-- Reads an array after its opening bracket. A comma may follow the last item. -/
def readArray (value : Reader Value) (s : List Char) : Option (Value × List Char) := do
  let item (s : List Char) : Option (Value × List Char) := do
    let s ← gap s
    let (v, s) ← value s
    let s ← gap s
    some (v, s)
  let (items, s) := separated ',' item s
  let s := if items.isEmpty then s else (expect [','] s).getD s
  let s ← gap s
  let rest ← expect [']'] s
  some (.array items, rest)

/-- Reads a table after its opening brace. It stays on one line, and no comma follows the last
entry. -/
def readInlined (value : Reader Value) (s : List Char) : Option (Value × List Char) := do
  let pair (s : List Char) : Option ((Key × Value) × List Char) := do
    let (key, s) ← readKey s
    let s ← expect ['='] s
    let (v, s) ← value (skipSpace s)
    some ((key, v), skipSpace s)
  let (pairs, s) := separated ',' pair s
  let rest ← expect ['\x7d'] (skipSpace s)
  let entries ← pairs.foldlM
    (fun (es : Entries) (key, v) => es.insertDotted key.path key.name v) []
  some (.table .inlined entries, rest)

/-- Reads a value in which brackets and braces nest up to `depth` deep. -/
def readValue : (depth : Nat) → Reader Value
  | _, [] => none
  | depth, c :: s =>
    if c = quote ∨ c = apostrophe then
      (readQuoted (c :: s)).map fun (text, rest) => (.text (String.ofList text), rest)
    else if c = '[' then
      match depth with
      | 0 => none
      | depth + 1 => readArray (readValue depth) s
    else if c = '\x7b' then
      match depth with
      | 0 => none
      | depth + 1 => readInlined (readValue depth) s
    else if c = 't' then (expect "rue".toList s).map fun rest => (.boolean true, rest)
    else if c = 'f' then (expect "alse".toList s).map fun rest => (.boolean false, rest)
    else readScalar (c :: s)

/-! ## Lines -/

/-- Reads a line, and what it says if it says anything. -/
def readLine (s : List Char) : Option (Option Statement × List Char) := do
  match skipSpace s with
  | '[' :: '[' :: s =>
    let (key, s) ← readKey s
    let s ← expect "]]".toList s
    let rest ← finishLine s
    some (some (.element key), rest)
  | '[' :: s =>
    let (key, s) ← readKey s
    let s ← expect [']'] s
    let rest ← finishLine s
    some (some (.table key), rest)
  | s =>
    match finishLine s with
    | some rest => some (none, rest)
    | none =>
      let (key, s) ← readKey s
      let s ← expect ['='] s
      let (value, s) ← readValue depthLimit (skipSpace s)
      let rest ← finishLine s
      some (some (.pair key value), rest)

/-- Reads lines, at most `fuel` of them. -/
def readLinesUpTo : (fuel : Nat) → List Char → Option (List Statement)
  | _, [] => some []
  | 0, _ => none
  | fuel + 1, s => do
    let (statement, rest) ← readLine s
    let more ← readLinesUpTo fuel rest
    some (statement.toList ++ more)

/-- Reads the statements of a document, before which a byte order mark may stand. -/
def readStatements (s : List Char) : Option (List Statement) :=
  let s := (expect ['\ufeff'] s).getD s
  readLinesUpTo (s.length + 1) s

end BackoffLM.Toml

import BackoffLM.Numeral.Decimal

/-!
# Tables of a TOML document

A document is a table of named values. How a table came to be decides what may still be added to it
(`Origin`): a header may follow a table that longer headers only implied, dotted keys may extend
what dotted keys made, and what stands in braces is complete. The three ways of adding are
`insertDotted`, `openTable` and `openElement`; each gives nothing when the document may not say so.
-/

namespace BackoffLM.Toml

/-- How a table came to be. -/
inductive Origin where
  /-- Written in braces. -/
  | inlined
  /-- Made by dotted keys. -/
  | dotted
  /-- Only named by longer headers. -/
  | implied
  /-- Opened by a header of its own. -/
  | header
  deriving DecidableEq, Repr

/-- The values of TOML. What a date or time says is not kept. -/
inductive Value where
  | text (text : String)
  | integer (n : Int)
  | number (d : Numeral.Decimal)
  | boolean (b : Bool)
  | moment
  | array (items : List Value)
  | table (origin : Origin) (entries : List (String × Value))
  /-- Tables opened one after another by doubled headers. -/
  | elements (tables : List (List (String × Value)))
  deriving Repr, Inhabited

/-- The values of a table under their names. -/
abbrev Entries := List (String × Value)

namespace Entries

/-- The value with a name. -/
def find? (es : Entries) (name : String) : Option Value := es.lookup name

/-- Changes the value with a name, or adds one. -/
def alter (name : String) (change : Option Value → Option Value) : Entries → Option Entries
  | [] => (change none).map fun v => [(name, v)]
  | (key, value) :: es =>
    if key = name then (change (some value)).map fun v => (key, v) :: es
    else (alter name change es).map fun es => (key, value) :: es

/-- Changes the last of the tables opened by doubled headers. -/
def alterLast (change : Entries → Option Entries) (tables : List Entries) : Option Value :=
  match tables.getLast? with
  | none => none
  | some last => (change last).map fun last => .elements (tables.dropLast ++ [last])

/-- Adds a value under a name that is not taken. -/
def insert (name : String) (value : Value) (es : Entries) : Option Entries :=
  es.alter name fun
    | none => some value
    | some _ => none

/-- Adds a value under a dotted key, whose parts but the last are `path`. The last table on the way
must be one that dotted keys made. -/
def insertDotted (path : List String) (name : String) (value : Value) (es : Entries) :
    Option Entries :=
  match path with
  | [] => es.insert name value
  | part :: path =>
    es.alter part fun
      | none => (insertDotted path name value []).map (.table .dotted)
      | some (.table .dotted inner) => (insertDotted path name value inner).map (.table .dotted)
      | some (.table .implied inner) =>
        if path.isEmpty then none
        else (insertDotted path name value inner).map (.table .implied)
      | some (.elements tables) =>
        if path.isEmpty then none else alterLast (insertDotted path name value) tables
      | some _ => none

/-- Changes the table that the parts of a header lead to. -/
def under (path : List String) (change : Entries → Option Entries) (es : Entries) :
    Option Entries :=
  match path with
  | [] => change es
  | part :: path =>
    es.alter part fun
      | none => (under path change []).map (.table .implied)
      | some (.table .inlined _) => none
      | some (.table origin inner) => (under path change inner).map (.table origin)
      | some (.elements tables) => alterLast (under path change) tables
      | some _ => none

/-- Opens a table, which may be implied but not there. -/
def openTable (path : List String) (name : String) : Entries → Option Entries :=
  under path fun es => es.alter name fun
    | none => some (.table .header [])
    | some (.table .implied inner) => some (.table .header inner)
    | some _ => none

/-- Opens one more of the tables of one name. -/
def openElement (path : List String) (name : String) : Entries → Option Entries :=
  under path fun es => es.alter name fun
    | none => some (.elements [[]])
    | some (.elements tables) => some (.elements (tables ++ [[]]))
    | some _ => none

end Entries

end BackoffLM.Toml

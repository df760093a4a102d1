import BackoffLM.Toml.Statement

/-!
# TOML documents

A document is read statement by statement into one table: a header opens the table that the values
after it go to, and before the first header they go to the document itself. `Toml.read` gives
nothing for a text that is no document.
-/

namespace BackoffLM.Toml

/-- What a document said so far. -/
structure Document where
  /-- Where values go. -/
  current : List String
  entries : Entries

/-- Takes in a statement. -/
def Document.add (d : Document) : Statement → Option Document
  | .table key => (d.entries.openTable key.path key.name).map fun es => ⟨key.parts, es⟩
  | .element key => (d.entries.openElement key.path key.name).map fun es => ⟨key.parts, es⟩
  | .pair key value =>
    (d.entries.under d.current (Entries.insertDotted key.path key.name value)).map fun es =>
      { d with entries := es }

/-- Reads a document. -/
def read (text : String) : Option Entries := do
  let statements ← readStatements text.toList
  let d ← statements.foldlM Document.add (⟨[], []⟩ : Document)
  some d.entries

end BackoffLM.Toml

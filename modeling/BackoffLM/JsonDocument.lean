import BackoffLM.Numeral.Layout

/-!
# Writing JSON

A JSON document is written with each item of an array and each member of an object on a line of its
own, two blanks further in than what holds it; an empty array or object takes no lines. Numbers are
the fewest digits that read back, whole ones with `.0`; those that are not finite become `null`.
-/

namespace BackoffLM

/-- A JSON document. A number is given by its text. -/
inductive JsonDocument where
  | null
  | number (digits : String)
  | text (content : String)
  | array (items : List JsonDocument)
  | object (members : List (String × JsonDocument))

namespace JsonDocument

/-- Numbers in single precision: an exponent below `1e-6` and from `1e13` on. -/
def singleStyle : Numeral.Style := ⟨-6, 12, true, true, .toEven⟩

/-- Numbers in double precision: an exponent below `1e-5` and from `1e16` on. -/
def doubleStyle : Numeral.Style := ⟨-5, 15, true, true, .toEven⟩

/-- A number in a style. -/
def ofNumber (style : Numeral.Style) : Numeral.Number → JsonDocument
  | .finite b => .number (String.ofList (b.render style))
  | .infinite _ | .notANumber => .null

/-- A log probability. -/
def ofLogProb (x : LogProb) : JsonDocument := ofNumber singleStyle (.ofLogProb x)

/-- A number in double precision. -/
def ofDouble (x : Float) : JsonDocument := ofNumber doubleStyle (.ofDouble x)

/-! ## Text -/

/-- A hexadecimal digit. -/
def hexDigit (n : Nat) : Char := (Nat.toDigits 16 n).headD '0'

/-- A character within quotes. -/
def escapeChar (c : Char) : List Char :=
  if c = '\x22' ∨ c = '\x5c' then ['\x5c', c]
  else if c = '\x08' then ['\x5c', 'b']
  else if c = '\t' then ['\x5c', 't']
  else if c = '\n' then ['\x5c', 'n']
  else if c = '\x0c' then ['\x5c', 'f']
  else if c = '\r' then ['\x5c', 'r']
  else if c.toNat < 0x20 then
    ['\x5c', 'u', '0', '0', hexDigit (c.toNat / 16), hexDigit (c.toNat % 16)]
  else [c]

/-- A text in quotes. -/
def quoted (content : String) : String :=
  String.ofList ('\x22' :: content.toList.flatMap escapeChar ++ ['\x22'])

/-! ## Layout -/

/-- The start of a line. -/
def margin (depth : Nat) : String := String.ofList (List.replicate (2 * depth) ' ')

/-- Lines between brackets, `depth` levels in. -/
def block (depth : Nat) (opening closing : String) (lines : List String) : String :=
  if lines.isEmpty then opening ++ closing
  else
    let inner := lines.map fun line => margin (depth + 1) ++ line
    opening ++ "\n" ++ String.intercalate ",\n" inner ++ "\n" ++ margin depth ++ closing

mutual

/-- The text of a document that stands `depth` levels in. -/
def renderAt (depth : Nat) : JsonDocument → String
  | .null => "null"
  | .number digits => digits
  | .text content => quoted content
  | .array items => block depth "[" "]" (renderItems (depth + 1) items)
  | .object members => block depth "\x7b" "\x7d" (renderMembers (depth + 1) members)

/-- The texts of items. -/
def renderItems (depth : Nat) : List JsonDocument → List String
  | [] => []
  | item :: items => renderAt depth item :: renderItems depth items

/-- The texts of members. -/
def renderMembers (depth : Nat) : List (String × JsonDocument) → List String
  | [] => []
  | (name, value) :: members =>
    (quoted name ++ ": " ++ renderAt depth value) :: renderMembers depth members

end

/-- The text of a document. -/
def render (d : JsonDocument) : String := renderAt 0 d

end JsonDocument

end BackoffLM

import BackoffLM.LoadError

/-!
# Encodings

A `Codec` writes values as bytes and reads them back off the front of bytes, leaving the rest.
Numbers are little-endian words of a fixed width; a sequence is its length as eight bytes and then
its elements; a string is the length of its UTF-8 bytes and then these; an optional value is a byte
0, or a byte 1 and the value; a record is its fields in order. Reading stops at the first fault.
-/

namespace BackoffLM

/-- Reads a value off the front of bytes. -/
abbrev Decoder (α : Type) := List UInt8 → Except DecodeFault (α × List UInt8)

/-- A way to write values of a type and to read them. -/
structure Codec (α : Type) where
  encode : α → List UInt8
  decode : Decoder α

/-! ## Words -/

/-- The `width` lowest bytes of a number, the lowest first. -/
def littleEndian : (width : Nat) → Nat → List UInt8
  | 0, _ => []
  | width + 1, n => UInt8.ofNat n :: littleEndian width (n / 256)

/-- The number whose bytes are given, the lowest first. -/
def ofLittleEndian (bytes : List UInt8) : Nat :=
  bytes.foldr (fun b n => b.toNat + 256 * n) 0

namespace Codec

/-- A number as a word of `width` bytes. -/
def word (width : Nat) : Codec Nat where
  encode := littleEndian width
  decode bytes :=
    let taken := bytes.take width
    if taken.length < width then .error .endOfData
    else .ok (ofLittleEndian taken, bytes.drop width)

/-! ## Combinators -/

/-- The values of one type written as those of another. -/
def map {α β : Type} (c : Codec α) (forth : α → β) (back : β → α) : Codec β where
  encode b := c.encode (back b)
  decode bytes := do
    let (a, rest) ← c.decode bytes
    .ok (forth a, rest)

/-- One value and then another. -/
def pair {α β : Type} (c : Codec α) (d : Codec β) : Codec (α × β) where
  encode p := c.encode p.1 ++ d.encode p.2
  decode bytes := do
    let (a, rest) ← c.decode bytes
    let (b, rest) ← d.decode rest
    .ok ((a, b), rest)

/-- Reads `count` values onto those read before. -/
def items {α : Type} (decode : Decoder α) : (count : Nat) → Array α → Decoder (Array α)
  | 0, done, bytes => .ok (done, bytes)
  | count + 1, done, bytes => do
    let (a, rest) ← decode bytes
    items decode count (done.push a) rest

/-- A sequence after its length. -/
def seq {α : Type} (c : Codec α) : Codec (Array α) where
  encode xs := littleEndian 8 xs.size ++ xs.toList.flatMap c.encode
  decode bytes := do
    let (count, rest) ← (word 8).decode bytes
    items c.decode count #[] rest

/-- A value that may be missing, after its tag. -/
def optional {α : Type} (c : Codec α) : Codec (Option α) where
  encode
    | none => [0]
    | some a => 1 :: c.encode a
  decode
    | [] => .error .endOfData
    | tag :: bytes =>
      if tag = 0 then .ok (none, bytes)
      else if tag = 1 then do
        let (a, rest) ← c.decode bytes
        .ok (some a, rest)
      else .error (.badTag tag)

/-! ## Values -/

/-- A byte. -/
def byte : Codec UInt8 := (word 1).map UInt8.ofNat UInt8.toNat

/-- A word of 16 bits. -/
def word16 : Codec UInt16 := (word 2).map UInt16.ofNat UInt16.toNat

/-- A word of 64 bits. -/
def word64 : Codec UInt64 := (word 8).map UInt64.ofNat UInt64.toNat

/-- The bits of a log probability. -/
def logProb : Codec LogProb := (word 4).map (fun n => ⟨UInt32.ofNat n⟩) fun x => x.bits.toNat

/-- A log probability and a backoff weight. -/
def weights : Codec Weights :=
  (logProb.pair logProb).map (fun p => ⟨p.1, p.2⟩) fun w => (w.prob, w.backoff)

/-- Text in UTF-8, after the number of its bytes. -/
def text : Codec String where
  encode s :=
    let bytes := Text.Utf8.encode s.toList
    littleEndian 8 bytes.length ++ bytes
  decode bytes := do
    let (count, rest) ← (word 8).decode bytes
    let taken := rest.take count
    if taken.length < count then .error .endOfString
    else
      match Text.Utf8.decode taken with
      | .error fault => .error (.badString fault)
      | .ok cs => .ok (String.ofList cs, rest.drop count)

end Codec

end BackoffLM

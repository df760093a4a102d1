import BackoffLM.Codec
import BackoffLM.Crc32
import BackoffLM.Kind

/-!
# Binary model files

A binary file opens with a header: eight magic bytes, the version of the format, the code of the
kind, the order, a reserved byte, the checksum of the payload, its length, and the number of n-grams
of each order. The payload follows. `Header.parse` reads a header off the front of bytes, and
`Header.encode` writes it; `BinaryFile.ofBytes` checks the length and the checksum of the payload.
-/

namespace BackoffLM

/-- What a binary file says of its payload. -/
structure Header where
  version : UInt8
  /-- The code of the kind; it need not name one. -/
  kindCode : UInt8
  order : UInt8
  checksum : UInt32
  payloadLength : UInt64
  /-- The number of n-grams of each order. -/
  counts : List UInt64
  deriving DecidableEq, Repr

namespace Header

/-- The bytes that a binary file opens with. -/
def magic : List UInt8 := [0x4E, 0x47, 0x52, 0x41, 0x4D, 0x4C, 0x4D, 0x00]

/-- The version of the format. -/
def currentVersion : UInt8 := 1

/-- The size of a header before its counts. -/
def fixedSize : Nat := 24

/-- The size of a header. -/
def size (h : Header) : Nat := fixedSize + 8 * h.counts.length

/-- The kind that the code names. -/
def kind? (h : Header) : Option Kind := Kind.ofCode? h.kindCode

/-- The first `count` words of eight bytes. -/
def readCounts : (count : Nat) → List UInt8 → List UInt64
  | 0, _ => []
  | count + 1, bytes =>
    UInt64.ofNat (ofLittleEndian (bytes.take 8)) :: readCounts count (bytes.drop 8)

/-- Reads a header off the front of bytes. Without the magic bytes the file is no binary file. -/
def parse (bytes : List UInt8) : Except LoadError (Option Header) :=
  if bytes.take 8 ≠ magic then .ok none
  else
    match bytes.drop 8 with
    -- The reserved byte may be anything.
    | version :: kindCode :: order :: _ :: words =>
      if words.length < 12 then .error .shortHeader
      else if version ≠ currentVersion then .error (.unsupportedVersion version)
      else if order = 0 ∨ maxOrder < order.toNat then .error (.unsupportedOrder order.toNat)
      else
        let counts := words.drop 12
        if counts.length < 8 * order.toNat then .error .shortHeader
        else
          .ok (some {
            version, kindCode, order
            checksum := UInt32.ofNat (ofLittleEndian (words.take 4))
            payloadLength := UInt64.ofNat (ofLittleEndian ((words.drop 4).take 8))
            counts := readCounts order.toNat counts })
    | _ => .error .shortHeader

/-- The bytes of a header. -/
def encode (h : Header) : List UInt8 :=
  magic ++ [h.version, h.kindCode, h.order, 0] ++ littleEndian 4 h.checksum.toNat ++
    littleEndian 8 h.payloadLength.toNat ++ h.counts.flatMap fun n => littleEndian 8 n.toNat

/-- How much of a file is looked at to recognize it: a header of the greatest order. -/
def sniffSize : Nat := fixedSize + 8 * maxOrder

/-- Recognizes a file by its first bytes. -/
def recognize (bytes : List UInt8) : Except LoadError (Option Header) :=
  parse (bytes.take sniffSize)

end Header

/-- A binary file whose payload has the length and checksum that its header says. -/
structure BinaryFile where
  header : Header
  payload : List UInt8
  deriving DecidableEq, Repr

/-- Reads a binary file. -/
def BinaryFile.ofBytes (bytes : List UInt8) : Except LoadError BinaryFile := do
  match ← Header.parse bytes with
  | none => .error (.corrupt .missingMagic)
  | some header =>
    let payload := bytes.drop header.size
    if payload.length ≠ header.payloadLength.toNat then
      .error (.corrupt (.payloadLength header.payloadLength.toNat payload.length))
    else
      let actual := Crc32.checksum payload
      if actual ≠ header.checksum then .error (.checksum header.checksum actual)
      else .ok ⟨header, payload⟩

end BackoffLM

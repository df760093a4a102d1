/-!
# UTF-8

`decode` reads bytes as UTF-8, one byte at a time: between characters it looks for a leading byte,
and inside a character it owes a number of tail bytes of which the next must lie in a range. The
range keeps out overlong forms, surrogates and code points above `U+10FFFF`. A refusal names where
the character at fault starts and how many of its bytes are wrong. `encode` is the other direction.
-/

namespace BackoffLM.Text.Utf8

/-- Where bytes stop being UTF-8. -/
structure Fault where
  /-- The number of bytes before the character at fault. -/
  index : Nat
  /-- How many bytes of the character were in order before one broke it; none when the bytes end
  inside the character. -/
  width : Option Nat
  deriving DecidableEq, Repr

/-- The wording of a fault. -/
def Fault.message (f : Fault) : String :=
  match f.width with
  | some n => s!"invalid utf-8 sequence of {n} bytes from index {f.index}"
  | none => s!"incomplete utf-8 byte sequence from index {f.index}"

/-- A character whose leading byte has been read. -/
structure Pending where
  /-- The tail bytes still owed. -/
  owed : Nat
  /-- The least value of the next tail byte. -/
  low : UInt8
  /-- The greatest value of the next tail byte. -/
  high : UInt8
  /-- The bits of the code point so far. -/
  bits : Nat
  /-- The bytes read so far. -/
  taken : Nat

/-- What a leading byte above `0x7F` promises, or none when no character starts with it. -/
def lead (b : UInt8) : Option Pending :=
  let n := b.toNat
  if n < 0xC2 then none
  else if n < 0xE0 then some ⟨1, 0x80, 0xBF, n - 0xC0, 1⟩
  else if n == 0xE0 then some ⟨2, 0xA0, 0xBF, n - 0xE0, 1⟩
  else if n == 0xED then some ⟨2, 0x80, 0x9F, n - 0xE0, 1⟩
  else if n < 0xF0 then some ⟨2, 0x80, 0xBF, n - 0xE0, 1⟩
  else if n == 0xF0 then some ⟨3, 0x90, 0xBF, n - 0xF0, 1⟩
  else if n < 0xF4 then some ⟨3, 0x80, 0xBF, n - 0xF0, 1⟩
  else if n == 0xF4 then some ⟨3, 0x80, 0x8F, n - 0xF0, 1⟩
  else none

/-- Decodes from between characters (`none`) or inside one, where `index` bytes stand before the
character. -/
def decodeFrom (index : Nat) : Option Pending → List UInt8 → Except Fault (List Char)
  | none, [] => .ok []
  | some _, [] => .error ⟨index, none⟩
  | none, b :: rest =>
    if b.toNat < 0x80 then
      (Char.ofNat b.toNat :: ·) <$> decodeFrom (index + 1) none rest
    else
      match lead b with
      | none => .error ⟨index, some 1⟩
      | some p => decodeFrom index (some p) rest
  | some p, b :: rest =>
    if p.low ≤ b && b ≤ p.high then
      let bits := p.bits * 64 + (b.toNat - 0x80)
      if p.owed ≤ 1 then
        (Char.ofNat bits :: ·) <$> decodeFrom (index + p.taken + 1) none rest
      -- Only the first tail byte has a range of its own.
      else decodeFrom index (some ⟨p.owed - 1, 0x80, 0xBF, bits, p.taken + 1⟩) rest
    else .error ⟨index, some p.taken⟩

/-- The characters that the bytes encode. -/
def decode (bytes : List UInt8) : Except Fault (List Char) := decodeFrom 0 none bytes

/-- The bytes of a text. -/
def encode (cs : List Char) : List UInt8 := cs.flatMap String.utf8EncodeChar

end BackoffLM.Text.Utf8

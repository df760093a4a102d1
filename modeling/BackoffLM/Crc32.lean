/-!
# The CRC-32 checksum

The cyclic redundancy check with the reflected polynomial `0xEDB88320`: the register starts with all
bits set, takes in one byte at a time, and is inverted at the end.
-/

namespace BackoffLM.Crc32

/-- Shifts the register by one bit, adding the polynomial when a bit falls out. -/
def shift (register : UInt32) : UInt32 :=
  if register &&& 1 = 1 then (register >>> 1) ^^^ 0xEDB88320 else register >>> 1

/-- Takes in a byte: its eight bits from the lowest up. -/
def step (register : UInt32) (byte : UInt8) : UInt32 :=
  Nat.repeat shift 8 (register ^^^ byte.toUInt32)

/-- The checksum of bytes. -/
def checksum (bytes : List UInt8) : UInt32 := bytes.foldl step 0xFFFFFFFF ^^^ 0xFFFFFFFF

/-- The check value by which implementations are compared, that of the digits `123456789`. -/
example : checksum [0x31, 0x32, 0x33, 0x34, 0x35, 0x36, 0x37, 0x38, 0x39] = 0xCBF43926 := by
  decide +kernel

end BackoffLM.Crc32

/-!
# Text checksums

The CRC-32 of a text's UTF-8 bytes (polynomial 0x04C11DB7, bits reversed), and the combination of
checksums into one 64-bit hash.
-/

namespace GraphInference.Text

/-- One bit of the division by the reversed polynomial. -/
def crcBit (r : UInt32) : UInt32 :=
  if r &&& 1 = 1 then (r >>> 1) ^^^ 0xEDB88320 else r >>> 1

/-- The remainder after one more byte. -/
def crcByte (r : UInt32) (b : UInt8) : UInt32 :=
  Nat.repeat crcBit 8 (r ^^^ b.toUInt32)

/-- The CRC-32 of a byte sequence. -/
def crc32 (bytes : List UInt8) : UInt32 :=
  bytes.foldl crcByte 0xFFFFFFFF ^^^ 0xFFFFFFFF

/-- The checksum of a text. -/
def checksum (s : String) : UInt64 :=
  (crc32 s.toUTF8.toList).toUInt64

/-- The hash of nothing yet. -/
def hashSeed : UInt64 := 1

/-- The hash `h` extended by `value`, modulo 2^64. -/
def hashCombine (h value : UInt64) : UInt64 :=
  h * 37 + value

end GraphInference.Text

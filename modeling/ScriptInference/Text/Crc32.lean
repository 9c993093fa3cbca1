/-!
# CRC-32 checksums

The reflected cyclic redundancy check with polynomial `0xEDB88320`, all ones at the start and
inverted at the end. The checksum of a text is taken over its UTF-8 bytes.
-/

namespace ScriptInference.Crc32

def polynomial : UInt32 := 0xEDB88320

/-- One division step: the register loses its lowest bit. -/
def shift (register : UInt32) : UInt32 :=
  if register &&& 1 = 1 then (register >>> 1) ^^^ polynomial else register >>> 1

def shifts : Nat → UInt32 → UInt32
  | 0, register => register
  | n + 1, register => shifts n (shift register)

/-- Feeds one byte into the register. -/
def update (register : UInt32) (byte : UInt8) : UInt32 :=
  shifts 8 (register ^^^ byte.toUInt32)

def ofBytes (bytes : List UInt8) : UInt32 := ~~~ bytes.foldl update 0xFFFFFFFF

def ofText (text : String) : UInt32 := ofBytes text.toUTF8.toList

example : ofText "123456789" = 0xCBF43926 := by decide +kernel

end ScriptInference.Crc32

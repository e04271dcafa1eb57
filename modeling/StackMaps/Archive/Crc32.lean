/-!
The checksum that an archive keeps of each file: the remainder of the file's bits by a polynomial of
degree 32, least significant bit first.
-/

namespace StackMaps.Crc32

def polynomial : UInt32 := 0xEDB88320

def shift (r : UInt32) : UInt32 :=
  if r &&& 1 = 0 then r >>> 1 else (r >>> 1) ^^^ polynomial

def shiftTimes : (count : Nat) → UInt32 → UInt32
  | 0, r => r
  | count + 1, r => shiftTimes count (shift r)

def absorb (r : UInt32) (b : UInt8) : UInt32 := shiftTimes 8 (r ^^^ b.toUInt32)

def sum (bytes : ByteArray) : UInt32 := bytes.foldl absorb 0xFFFFFFFF ^^^ 0xFFFFFFFF

end StackMaps.Crc32

import Backfill.Bytes

/-!
CRC-32C: the remainder by the Castagnoli polynomial, bits taken least significant first.
-/

namespace Backfill

abbrev Checksum := UInt32

namespace Checksum

/-- The polynomial with its bits in reverse. -/
def polynomial : UInt32 := 0x82f63b78

def shiftBit (c : UInt32) : UInt32 :=
  if c &&& 1 = 1 then (c >>> 1) ^^^ polynomial else c >>> 1

def absorb (c : UInt32) (b : UInt8) : UInt32 :=
  (List.range 8).foldl (fun c _ => shiftBit c) (c ^^^ b.toUInt32)

def ofBytes (bs : Bytes) : Checksum := bs.foldl absorb 0xffffffff ^^^ 0xffffffff

/-- Eight hexadecimal digits. -/
def display (c : Checksum) : String :=
  let digits := Nat.toDigits 16 c.toNat
  "0x" ++ String.ofList (List.replicate (8 - digits.length) '0' ++ digits)

end Checksum

end Backfill

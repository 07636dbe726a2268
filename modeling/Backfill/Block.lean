import Backfill.Segment

/-!
The points of one series in one window, in binary form and with a checksum. A block is kept under
the start of its window.
-/

namespace Backfill

structure Block where
  bytes : Bytes
  checksum : Checksum
  deriving DecidableEq, Repr

namespace Block

/-- A block whose checksum fits. -/
def ofBytes (bytes : Bytes) : Block := ⟨bytes, Checksum.ofBytes bytes⟩

/-- The points are put in order first, and of several at one instant the last is kept. -/
def encode (points : List Point) : Except Segment.Unencodable Block :=
  (Segment.write (Point.normalize points)).map ofBytes

/-- The checksum is looked at before the bytes. -/
def points (start : Instant) (b : Block) : Except Segment.Corruption (List Point) :=
  let computed := Checksum.ofBytes b.bytes
  if computed ≠ b.checksum then .error (.checksumMismatch start b.checksum computed)
  else Segment.read b.bytes

end Block

end Backfill

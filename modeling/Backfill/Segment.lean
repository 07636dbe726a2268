import Backfill.Bytes.LittleEndian
import Backfill.Checksum
import Backfill.Point
import Backfill.Timestamp

/-!
The binary form of a list of points.

    header   "TSBK", version and number of points in four bytes each
    point    time in eight bytes, value in eight, precision in one, length of the annotation in
             four, and the annotation itself

Numbers have their least significant byte first. Bytes after the last point are not looked at.
-/

namespace Backfill.Segment

def magic : Bytes := [0x54, 0x53, 0x42, 0x4b]

def version : Nat := 1

def headerSize : Nat := 12

/-- One more than the largest length or count that can be written. -/
def wordLimit : Nat := 4294967296

/-- Why a list of points has no binary form. -/
inductive Unencodable where
  | timeOutOfRange (t : Instant)
  | tooManyPoints
  | annotationTooLarge
  deriving DecidableEq, Repr

namespace Unencodable

def message : Unencodable → String
  | timeOutOfRange t => s!"timestamp {Timestamp.display t} out of range"
  | tooManyPoints => "too many datapoints"
  | annotationTooLarge => "annotation too large"

def toError (u : Unencodable) : Error := .serialization u.message

end Unencodable

/-- Why bytes are not the binary form of points. -/
inductive Corruption where
  | tooSmall (size : Nat)
  | invalidMagic
  | unsupportedVersion (version : Nat)
  | truncated
  | invalidPrecision (code : Nat)
  | annotationOverrun
  /-- The bytes are not those that the checksum of the block at `start` was made of. -/
  | checksumMismatch (start : Instant) (stored computed : Checksum)
  deriving DecidableEq, Repr

namespace Corruption

def message : Corruption → String
  | tooSmall size => s!"segment too small: {size} bytes, expected at least {headerSize}"
  | invalidMagic => "invalid magic bytes"
  | unsupportedVersion v => s!"unsupported segment version: {v}"
  | truncated => "truncated segment: failed to fill whole buffer"
  | invalidPrecision code => s!"invalid time unit: {code}"
  | annotationOverrun => "annotation overruns segment"
  | checksumMismatch start stored computed =>
    s!"checksum mismatch for block {Timestamp.display start}: " ++
      s!"stored {stored.display}, computed {computed.display}"

def toError (c : Corruption) : Error := .corruptSegment c.message

end Corruption

def writePoint (p : Point) : Except Unencodable Bytes :=
  let note := p.sample.note.getD []
  if ¬ FitsWord p.time then .error (.timeOutOfRange p.time)
  else if wordLimit ≤ note.length then .error .annotationTooLarge
  else .ok (LittleEndian.encodeWord p.time ++ LittleEndian.encode 8 p.sample.bits.toNat ++
    LittleEndian.encode 1 p.sample.precision.code ++ LittleEndian.encode 4 note.length ++ note)

def writePoints : List Point → Except Unencodable Bytes
  | [] => .ok []
  | p :: r => do
    let b ← writePoint p
    let bs ← writePoints r
    return b ++ bs

def header (count : Nat) : Bytes :=
  magic ++ LittleEndian.encode 4 version ++ LittleEndian.encode 4 count

/-- An annotation without bytes is written like none at all. -/
def write (points : List Point) : Except Unencodable Bytes :=
  if wordLimit ≤ points.length then .error .tooManyPoints
  else (writePoints points).map (header points.length ++ ·)

/-- The first `n` bytes and the rest. -/
def take (n : Nat) (bs : Bytes) : Except Corruption (Bytes × Bytes) :=
  if n ≤ bs.length then .ok (bs.splitAt n) else .error .truncated

def readAnnotation (size : Nat) (bs : Bytes) : Except Corruption (Option Bytes × Bytes) :=
  if size = 0 then .ok (none, bs)
  else if size ≤ bs.length then .ok (some (bs.take size), bs.drop size)
  else .error .annotationOverrun

def readPoint (bs : Bytes) : Except Corruption (Point × Bytes) := do
  let (time, bs) ← take 8 bs
  let (value, bs) ← take 8 bs
  let (unit, bs) ← take 1 bs
  let code := LittleEndian.decode unit
  let some precision := Precision.ofCode? code | .error (.invalidPrecision code)
  let (size, bs) ← take 4 bs
  let (note, bs) ← readAnnotation (LittleEndian.decode size) bs
  return (⟨LittleEndian.decodeWord time,
    ⟨UInt64.ofNat (LittleEndian.decode value), precision, note⟩⟩, bs)

def readPoints : (count : Nat) → Bytes → Except Corruption (List Point)
  | 0, _ => .ok []
  | n + 1, bs => do
    let (p, bs) ← readPoint bs
    return p :: (← readPoints n bs)

def read (bs : Bytes) : Except Corruption (List Point) := do
  if bs.length < headerSize then .error (.tooSmall bs.length) else
  let (found, bs) ← take 4 bs
  if found ≠ magic then .error .invalidMagic else
  let (v, bs) ← take 4 bs
  if LittleEndian.decode v ≠ version then .error (.unsupportedVersion (LittleEndian.decode v)) else
  let (count, bs) ← take 4 bs
  readPoints (LittleEndian.decode count) bs

end Backfill.Segment

import Backfill.Bytes
import Backfill.Instant
import Backfill.SortedMap

/-!
Timestamped values. Of several writes at one instant the last counts.
-/

namespace Backfill

/-- The unit of time that a value was written with. -/
inductive Precision where
  | second
  | millisecond
  | microsecond
  | nanosecond
  deriving DecidableEq, Repr, Inhabited

namespace Precision

def finest : Precision := nanosecond

def code : Precision → Nat
  | second => 1
  | millisecond => 2
  | microsecond => 3
  | nanosecond => 4

def ofCode? (n : Nat) : Option Precision :=
  [second, millisecond, microsecond, nanosecond].find? (·.code = n)

end Precision

/-- What is written at an instant. Values are only ever copied, so `bits` keeps the 64 bits of the
float as they are. -/
structure Sample where
  bits : UInt64
  precision : Precision
  /-- The annotation. -/
  note : Option Bytes
  deriving DecidableEq, Repr

/-- Times are only compared here, so `time` may also be what a clock shows. -/
structure Point where
  time : Instant
  sample : Sample
  deriving DecidableEq, Repr

namespace Point

/-- The last sample written at each instant. -/
def latest (points : List Point) : SortedMap Instant Sample :=
  points.foldl (fun m p => m.insert p.time p.sample) .empty

def ofSamples (m : SortedMap Instant Sample) : List Point := m.entries.map fun (t, s) => ⟨t, s⟩

/-- In ascending order, one point for each instant. -/
def normalize (points : List Point) : List Point := ofSamples (latest points)

end Point

end Backfill

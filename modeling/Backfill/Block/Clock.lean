import Backfill.Block

/-!
The binary form of points whose times the clock shows. It counts nanoseconds and so has no room for
leap seconds: a time in one is written like the time as far into the second after it.
-/

namespace Backfill

/-- The same sample, with its time told in another way. -/
def Point.map (f : Int → Int) (p : Point) : Point := { p with time := f p.time }

namespace Segment

/-- The binary form of points with clock times, if they have one. -/
def writeClock (points : List Point) : Option Bytes :=
  (write (points.map (·.map ClockTime.toInstant))).toOption

def readClock (bs : Bytes) : Except Corruption (List Point) :=
  (read bs).map fun points => points.map (·.map ClockTime.ofInstant)

end Segment

namespace Block

/-- The points are put in the order of the clock, and of several at one clock time the last is
kept, before any of them is counted. -/
def encodeClock (points : List Point) : Option Block :=
  (Segment.writeClock (Point.normalize points)).map ofBytes

def pointsClock (start : Instant) (b : Block) : Except Segment.Corruption (List Point) :=
  (b.points start).map fun points => points.map (·.map ClockTime.ofInstant)

end Block

end Backfill

import Backfill.Interval.Clock
import Backfill.TimeSet

/-!
Sets of clock times, held as the sets of their numbers. Since the numbers are in order as the times
are, every operation that only compares serves both kinds of sets; what is left is how long a set of
clock times lasts and how it is written.
-/

namespace Backfill

namespace TimeSet

def map (f : Int → Int) (s : TimeSet) : TimeSet := ⟨s.intervals.map (Interval.map f)⟩

/-- A set of instants on the clock. -/
def toClock : TimeSet → TimeSet := map ClockTime.ofInstant

/-- The ends of a set of clock times as instants. -/
def ofClock : TimeSet → TimeSet := map ClockTime.toInstant

def elapsed (s : TimeSet) : Duration := s.intervals.foldr (fun r d => r.elapsed + d) 0

def displayClock : TimeSet → String := displayWith Timestamp.displayClock

end TimeSet

end Backfill

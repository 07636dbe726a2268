import Backfill.Error

/-!
Points in time and the windows that time is cut into.
-/

namespace Backfill

/-- Nanoseconds since 1970-01-01T00:00:00Z, without leap seconds. A clock shows one away from leap
seconds, and shows other times only during one. -/
abbrev Instant := Int

/-- Nanoseconds. -/
abbrev Duration := Int

/-- Fits a signed word of 64 bits. -/
def FitsWord (n : Int) : Prop := -9223372036854775808 ≤ n ∧ n < 9223372036854775808

instance (n : Int) : Decidable (FitsWord n) := inferInstanceAs (Decidable (_ ∧ _))

namespace Duration

def second : Duration := 1000000000

def hour : Duration := 3600 * second

end Duration

namespace Instant

/-- The first instant of the year -262143. -/
def earliest : Instant := -8334601228800000000000

/-- The last instant of the year 262142. -/
def latest : Instant := 8210266876799999999999

/-- The clock tells no date before `earliest` or after `latest`. -/
def shift (t : Instant) (d : Duration) : Except Fault Instant :=
  if earliest ≤ t + d ∧ t + d ≤ latest then .ok (t + d) else .error .dateOverflow

/-- Where the window of length `size` that holds `t` starts, windows being counted from the epoch.
Times and lengths beyond a word are not cut: the window then starts at `t` itself. -/
def windowStart (t : Instant) (size : Duration) : Except Fault Instant :=
  if size < 0 ∨ ¬ FitsWord size ∨ ¬ FitsWord t then .ok t
  else if size = 0 then .error .zeroWindow
  else .ok (t - t % size)

end Instant

end Backfill

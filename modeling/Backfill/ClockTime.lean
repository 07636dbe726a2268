import Backfill.Instant

/-!
What a clock shows. While a leap second lasts, the clock stays at the second before it and its
nanoseconds run on, so it shows times that instants cannot tell apart. They are numbered, two
billion to a second, so that they compare as their numbers do.
-/

namespace Backfill

abbrev ClockTime := Int

namespace ClockTime

def perSecond : Int := 2000000000

/-- The nanoseconds are from 0 on and less than two billion. -/
def ofParts (second nanos : Int) : ClockTime := second * perSecond + nanos

/-- Seconds since 1970-01-01T00:00:00Z. -/
def second (c : ClockTime) : Int := c / perSecond

/-- Nanoseconds since the second began. -/
def nanos (c : ClockTime) : Int := c % perSecond

def isLeap (c : ClockTime) : Bool := Duration.second ≤ c.nanos

/-- Away from leap seconds. -/
def ofInstant (t : Instant) : ClockTime := ofParts (t / Duration.second) (t % Duration.second)

/-- A leap second counts as the second after it. -/
def toInstant (c : ClockTime) : Instant := c.second * Duration.second + c.nanos

def secondOfDay (c : ClockTime) : Int := c.second % 86400

/-- From `b` to `a`. A leap second counts when it lies between them by the time of day. -/
def since (a b : ClockTime) : Duration :=
  let leaps : Int :=
    if b.secondOfDay < a.secondOfDay ∧ b.isLeap then 1
    else if a.secondOfDay < b.secondOfDay ∧ a.isLeap then -1
    else 0
  a.toInstant - b.toInstant + leaps * Duration.second

/-- Later by `d`, or earlier. Within a leap second and the second before it the nanoseconds run on.
A leap second that is left counts as the second before it on the way to later times, and as the
second after it on the way to earlier ones. -/
def shift (c : ClockTime) (d : Duration) : Except Fault ClockTime :=
  if c.isLeap ∧ -Duration.second < d ∧ c.nanos + d < perSecond then .ok (c + d)
  else
    let base := if c.isLeap ∧ 0 < d then c.toInstant - Duration.second else c.toInstant
    (Instant.shift base d).map ofInstant

/-- Where the window of length `size` starts that holds `c` counted as an instant. -/
def windowStart (c : ClockTime) (size : Duration) : Except Fault ClockTime :=
  if size < 0 ∨ ¬ FitsWord size ∨ ¬ FitsWord c.toInstant then .ok c
  else if size = 0 then .error .zeroWindow
  else c.shift (-(c.toInstant % size))

theorem toInstant_ofInstant (t : Instant) : (ofInstant t).toInstant = t := by
  have h (t : Int) : (t / 1000000000 * 2000000000 + t % 1000000000) / 2000000000 * 1000000000 +
      (t / 1000000000 * 2000000000 + t % 1000000000) % 2000000000 = t := by omega
  exact h t

theorem isLeap_ofInstant (t : Instant) : (ofInstant t).isLeap = false := by
  have h (t : Int) :
      ¬ 1000000000 ≤ (t / 1000000000 * 2000000000 + t % 1000000000) % 2000000000 := by omega
  exact decide_eq_false (h t)

/-- Away from leap seconds the clock shows an instant. -/
theorem ofInstant_toInstant {c : ClockTime} (away : c.isLeap = false) :
    ofInstant c.toInstant = c := by
  have h (c : Int) (away : ¬ 1000000000 ≤ c % 2000000000) :
      (c / 2000000000 * 1000000000 + c % 2000000000) / 1000000000 * 2000000000 +
        (c / 2000000000 * 1000000000 + c % 2000000000) % 1000000000 = c := by omega
  exact h c (of_decide_eq_false away)

/-- Instants stay in order. -/
theorem ofInstant_lt_ofInstant {s t : Instant} : ofInstant s < ofInstant t ↔ s < t := by
  have h (s t : Int) : s / 1000000000 * 2000000000 + s % 1000000000 <
      t / 1000000000 * 2000000000 + t % 1000000000 ↔ s < t := by omega
  exact h s t

theorem shift_ofInstant (t : Instant) (d : Duration) :
    (ofInstant t).shift d = (Instant.shift t d).map ofInstant := by
  simp [shift, isLeap_ofInstant, toInstant_ofInstant]

theorem windowStart_ofInstant (t : Instant) (size : Duration) :
    windowStart (ofInstant t) size = (Instant.windowStart t size).map ofInstant := by
  rw [windowStart, Instant.windowStart, toInstant_ofInstant, shift_ofInstant]
  split
  · rfl
  · rename_i fits
    split
    · rfl
    · rename_i ne
      simp only [not_or, Decidable.not_not, Int.not_lt] at fits
      obtain ⟨nonneg, ⟨_, _⟩, _, _⟩ := fits
      -- the start of a window that fits into a word is a time that the clock can tell
      have := Int.emod_nonneg t ne
      have := Int.emod_lt_of_pos t (show 0 < size by lia)
      have told : Instant.earliest ≤ t + -(t % size) ∧ t + -(t % size) ≤ Instant.latest := by
        unfold Instant.earliest Instant.latest
        lia
      rw [Instant.shift, if_pos told, Int.sub_eq_add_neg]

end ClockTime

end Backfill

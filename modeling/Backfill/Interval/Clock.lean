import Backfill.Interval

/-!
Intervals of clock times, and the windows that the clock shows.
-/

namespace Backfill

namespace Interval

def map (f : Int → Int) (r : Interval) : Interval := ⟨f r.start, f r.stop⟩

/-- The time from one end to the other, by the clock. -/
def elapsed (r : Interval) : Duration := if r.isEmpty then 0 else ClockTime.since r.stop r.start

/-- The windows that meet `r`, at most so many, by the clock. -/
def clockWindows (limit : Nat) (r : Interval) (size : Duration) : Trail Interval Fault Unit :=
  if r.isEmpty then .pure ()
  else (Trail.lift (ClockTime.windowStart r.start size)).bind
    (walk (ClockTime.shift · size) r.stop limit)

theorem isEmpty_map_ofInstant (r : Interval) : (r.map ClockTime.ofInstant).isEmpty = r.isEmpty := by
  simp only [isEmpty, map, ← Int.not_lt, ClockTime.ofInstant_lt_ofInstant]

theorem walk_ofInstant (size : Duration) (stop : Instant) (n : Nat) (b : Instant) :
    let w := walk (Instant.shift · size) stop n b
    walk (ClockTime.shift · size) (ClockTime.ofInstant stop) n (ClockTime.ofInstant b) =
      ⟨w.entries.map (map ClockTime.ofInstant), w.outcome⟩ := by
  induction n generalizing b with
  | zero => rfl
  | succ n ih =>
    simp only [walk, ClockTime.shift_ofInstant, ClockTime.ofInstant_lt_ofInstant]
    cases Instant.shift b size with
    | error f => rfl
    | ok next =>
      simp only [Except.map]
      split
      · rw [ih next]
        rfl
      · rfl

/-- Away from leap seconds the clock shows the windows of instants. -/
theorem clockWindows_ofInstant (limit : Nat) (r : Interval) (size : Duration) :
    let w := r.windowsUpTo limit size
    (r.map ClockTime.ofInstant).clockWindows limit size =
      ⟨w.entries.map (map ClockTime.ofInstant), w.outcome⟩ := by
  simp only [clockWindows, windowsUpTo, isEmpty_map_ofInstant]
  split
  · rfl
  · dsimp only [map]
    rw [ClockTime.windowStart_ofInstant]
    cases Instant.windowStart r.start size with
    | error f => rfl
    | ok b => exact walk_ofInstant size r.stop limit b

end Interval

end Backfill

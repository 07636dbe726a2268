import Backfill.Timestamp
import Backfill.Trail

/-!
Half-open intervals of time, and the aligned windows that cover one.
-/

namespace Backfill

/-- The instants from `start` on and before `stop`; none when `stop` is not after `start`. Where the
bounds are what a clock shows, these are times of that clock. -/
structure Interval where
  start : Instant
  stop : Instant
  deriving DecidableEq, Repr

namespace Interval

instance : Membership Instant Interval where
  mem r t := r.start ≤ t ∧ t < r.stop

instance (t : Instant) (r : Interval) : Decidable (t ∈ r) :=
  inferInstanceAs (Decidable (r.start ≤ t ∧ t < r.stop))

def isEmpty (r : Interval) : Bool := r.stop ≤ r.start

def length (r : Interval) : Duration := if r.isEmpty then 0 else r.stop - r.start

def overlaps (a b : Interval) : Bool := a.start < b.stop && b.start < a.stop

def intersect (a b : Interval) : Option Interval :=
  let common := Interval.mk (max a.start b.start) (min a.stop b.stop)
  if common.isEmpty then none else some common

/-- The least interval around both. -/
def hull (a b : Interval) : Interval := ⟨min a.start b.start, max a.stop b.stop⟩

/-- What is left of `a` on either side of `b`. -/
def cut (a b : Interval) : List Interval :=
  if a.overlaps b then
    (if a.start < b.start then [⟨a.start, b.start⟩] else []) ++
      (if b.stop < a.stop then [⟨b.stop, a.stop⟩] else [])
  else [a]

instance : Ord Interval where
  compare a b := (compare a.start b.start).then (compare a.stop b.stop)

/-- The interval of the given length that starts at `start`. -/
def ofStart (start : Instant) (size : Duration) : Except Fault Interval :=
  (Instant.shift start size).map (⟨start, ·⟩)

/-- Consecutive windows from `b` on, at most so many, while they start before `stop`. The end of a
window is worked out before the window is looked at, so the first one past `stop` can still be the
one that leaves the clock. -/
def walk (next : Int → Except Fault Int) (stop : Int) : Nat → Int → Trail Interval Fault Unit
  | 0, _ => .pure ()
  | n + 1, b =>
    match next b with
    | .error f => .fail f
    | .ok later =>
      if b < stop then (Trail.note ⟨b, later⟩).bind fun _ => walk next stop n later else .pure ()

def windowsUpTo (limit : Nat) (r : Interval) (size : Duration) : Trail Interval Fault Unit :=
  if r.isEmpty then .pure ()
  else (Trail.lift (Instant.windowStart r.start size)).bind
    (walk (Instant.shift · size) r.stop limit)

/-- The fuel lasts until the windows have passed `stop`. -/
def windowFuel (r : Interval) (size : Duration) : Nat :=
  ((r.stop - r.start) / size).toNat.succ.succ.succ

/-- The aligned windows that meet `r`, ascending. The first and the last may reach out of `r`. -/
def windows (r : Interval) (size : Duration) : Trail Interval Fault Unit :=
  r.windowsUpTo (r.windowFuel size) size

/-- Takes in the windows from `b` on, one after the other. A window is only worked out when those
before it have been taken in, so a failure spares the rest. -/
def foldWindowsFrom {ε β : Type} (size : Duration) (stop : Instant)
    (f : β → Interval → Trail ε Fault β) : Nat → Instant → β → Trail ε Fault β
  | 0, _, s => .pure s
  | n + 1, b, s =>
    match Instant.shift b size with
    | .error x => .fail x
    | .ok next =>
      if b < stop then (f s ⟨b, next⟩).bind (foldWindowsFrom size stop f n next) else .pure s

def foldWindows {ε β : Type} (r : Interval) (size : Duration) (f : β → Interval → Trail ε Fault β)
    (s : β) : Trail ε Fault β :=
  if r.isEmpty then .pure s
  else (Trail.lift (Instant.windowStart r.start size)).bind fun b =>
    foldWindowsFrom size r.stop f (r.windowFuel size) b s

theorem foldWindowsFrom_eq {ε β : Type} (size : Duration) (stop : Instant)
    (f : β → Interval → Trail ε Fault β) (n : Nat) (b : Instant) (s : β) :
    foldWindowsFrom size stop f n b s =
      Trail.foldOver f s (walk (Instant.shift · size) stop n b) := by
  induction n generalizing b s with
  | zero => rfl
  | succ n ih =>
    simp only [foldWindowsFrom, walk]
    cases Instant.shift b size with
    | error x => rfl
    | ok next =>
      dsimp only
      split
      · rw [Trail.foldOver_note_bind]
        exact congrArg _ (funext fun c => ih next c)
      · rfl

/-- The windows are taken in as they are listed. -/
theorem foldWindows_eq {ε β : Type} (r : Interval) (size : Duration)
    (f : β → Interval → Trail ε Fault β) (s : β) :
    r.foldWindows size f s = Trail.foldOver f s (r.windows size) := by
  simp only [foldWindows, windows, windowsUpTo]
  split
  · rfl
  · cases Instant.windowStart r.start size with
    | error x => rfl
    | ok b =>
      rw [Trail.bind_lift_ok, Trail.bind_lift_ok]
      exact foldWindowsFrom_eq ..

def displayWith (point : Int → String) (r : Interval) : String :=
  "[" ++ point r.start ++ ", " ++ point r.stop ++ ")"

def display : Interval → String := displayWith Timestamp.display

end Interval

end Backfill

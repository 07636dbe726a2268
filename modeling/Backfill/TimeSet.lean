import Backfill.Interval

/-!
Sets of instants held as a list of intervals. Sets made by the operations below are canonical:
their intervals are not empty, ascend, and have a gap between any two.
-/

namespace Backfill

structure TimeSet where
  intervals : List Interval
  deriving DecidableEq, Repr

namespace TimeSet

def empty : TimeSet := ⟨[]⟩

instance : Inhabited TimeSet := ⟨empty⟩

instance : Membership Instant TimeSet where
  mem s t := ∃ r ∈ s.intervals, t ∈ r

instance (t : Instant) (s : TimeSet) : Decidable (t ∈ s) :=
  inferInstanceAs (Decidable (∃ r ∈ s.intervals, t ∈ r))

/-- Adjacent intervals count as one, so no two ends meet. -/
structure Canonical (s : TimeSet) : Prop where
  inhabited : ∀ r ∈ s.intervals, r.start < r.stop
  separated : s.intervals.Pairwise (fun a b => a.stop < b.start)

def isEmpty (s : TimeSet) : Bool := s.intervals.isEmpty

def size (s : TimeSet) : Nat := s.intervals.length

/-- `m` grows by every interval that it touches. Once it has been placed, later intervals that it
touches are taken up without being placed again. -/
def place (m : Interval) (placed : Bool) : List Interval → List Interval
  | [] => if placed then [] else [m]
  | e :: r =>
    if e.stop < m.start then e :: place m placed r
    else if m.stop < e.start then (if placed then [e] else [m, e]) ++ place m true r
    else place (m.hull e) placed r

def add (s : TimeSet) (r : Interval) : TimeSet :=
  if r.isEmpty then s else ⟨place r false s.intervals⟩

def union (a b : TimeSet) : TimeSet := b.intervals.foldl add a

def ofIntervals (l : List Interval) : TimeSet := l.foldl add empty

def ofInterval (r : Interval) : TimeSet := empty.add r

def remove (s : TimeSet) (r : Interval) : TimeSet :=
  if r.isEmpty then s else ⟨s.intervals.flatMap (·.cut r)⟩

def diff (a b : TimeSet) : TimeSet := b.intervals.foldl remove a

/-- The part of the set inside `r`. -/
def clip (s : TimeSet) (r : Interval) : TimeSet :=
  ofIntervals (s.intervals.filterMap (·.intersect r))

def intersect (a b : TimeSet) : TimeSet :=
  b.intervals.foldl (fun out r => out.union (a.clip r)) empty

def overlaps (s : TimeSet) (r : Interval) : Bool := s.intervals.any (·.overlaps r)

/-- From the first start to the last end. -/
def bounds (s : TimeSet) : Option Interval :=
  match s.intervals.head?, s.intervals.getLast? with
  | some first, some last => some ⟨first.start, last.stop⟩
  | _, _ => none

def length (s : TimeSet) : Duration := s.intervals.foldr (fun r d => r.length + d) 0

def displayWith (point : Int → String) (s : TimeSet) : String :=
  "[" ++ ", ".intercalate (s.intervals.map (Interval.displayWith point)) ++ "]"

def display : TimeSet → String := displayWith Timestamp.display

/-- A window, and the part of it that was asked for. -/
structure Slice where
  window : Interval
  part : Interval
  deriving DecidableEq, Repr

/-- The windows of every interval in turn. Two intervals in one window give that window twice, each
time with a part of its own. -/
def slices (s : TimeSet) (size : Duration) : Trail Slice Fault Unit :=
  Trail.each (fun r =>
    let windows := r.windows size
    ⟨windows.entries.filterMap (fun w => (w.intersect r).map (⟨w, ·⟩)), windows.outcome⟩)
    s.intervals

/-- Takes in the slices as they are listed, working out each only when those before it have been
taken in. -/
def foldSlices {ε β : Type} (s : TimeSet) (size : Duration) (f : β → Slice → Trail ε Fault β)
    (b : β) : Trail ε Fault β :=
  Trail.foldEach (fun b r => r.foldWindows size
    (fun b w => (w.intersect r).elim (.pure b) fun part => f b ⟨w, part⟩) b) b s.intervals

theorem foldEach_filterMap {ε β α γ : Type} (f : β → γ → Trail ε Fault β) (g : α → Option γ) (b : β)
    (l : List α) :
    Trail.foldEach (fun b a => (g a).elim (.pure b) (f b)) b l =
      Trail.foldEach f b (l.filterMap g) := by
  induction l generalizing b with
  | nil => rfl
  | cons a l ih =>
    cases h : g a <;> simp [Trail.foldEach, h, ih]

theorem foldSlices_eq {ε β : Type} (s : TimeSet) (size : Duration)
    (f : β → Slice → Trail ε Fault β) (b : β) :
    s.foldSlices size f b = Trail.foldOver f b (s.slices size) := by
  obtain ⟨l⟩ := s
  simp only [foldSlices, slices]
  induction l generalizing b with
  | nil => rfl
  | cons r l ih =>
    rw [Trail.foldEach, Trail.each, Trail.foldOver_bind, Interval.foldWindows_eq, Trail.foldOver,
      Trail.foldOver]
    have h := foldEach_filterMap f (fun w => (w.intersect r).map (Slice.mk w)) b
      (r.windows size).entries
    simp only [Option.elim_map, Function.comp_def] at h
    rw [← h]
    exact congrArg _ (funext ih)

end TimeSet

end Backfill

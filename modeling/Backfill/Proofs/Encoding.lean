import Backfill.Proofs.Points

/-!
Points have a binary form just when their times, their number and their annotations fit it. What is
left of them in a block is the last at every instant, and the block is the same for that.
-/

namespace Backfill

namespace Segment

/-- Every number that is written for the point fits. -/
structure Writable (p : Point) : Prop where
  time : FitsWord p.time
  note : (p.sample.note.getD []).length < wordLimit

theorem writePoint_ok {p : Point} : (∃ bs, writePoint p = .ok bs) ↔ Writable p := by
  unfold writePoint
  dsimp only
  split
  case isTrue far =>
    constructor
    · intro h
      cases h.choose_spec
    · intro w
      exact absurd w.time far
  case isFalse near =>
    split
    case isTrue long =>
      constructor
      · intro h
        cases h.choose_spec
      · intro w
        exact absurd w.note (Nat.not_lt_of_le long)
    case isFalse short =>
      constructor
      · intro _
        exact ⟨Decidable.not_not.mp near, Nat.lt_of_not_le short⟩
      · intro _
        exact ⟨_, rfl⟩

theorem writePoints_ok {points : List Point} :
    (∃ bs, writePoints points = .ok bs) ↔ ∀ p ∈ points, Writable p := by
  induction points with
  | nil => simp [writePoints]
  | cons p points ih =>
    rw [List.forall_mem_cons, ← ih, ← writePoint_ok]
    simp only [writePoints, bind, Except.bind]
    cases writePoint p with
    | error e => simp
    | ok b =>
      cases writePoints points with
      | error e => simp
      | ok bs => simp [pure, Except.pure]

theorem write_ok {points : List Point} :
    (∃ bs, write points = .ok bs) ↔
      points.length < wordLimit ∧ ∀ p ∈ points, Writable p := by
  rw [← writePoints_ok, write]
  split
  case isTrue many =>
    constructor
    · intro h
      cases h.choose_spec
    · intro h
      exact absurd h.1 (Nat.not_lt_of_le many)
  case isFalse few =>
    cases writePoints points with
    | error e => simp [Except.map]
    | ok bs => simpa [Except.map] using Nat.lt_of_not_le few

/-- An annotation without bytes leaves no trace. -/
theorem writePoint_trim (p : Point) : writePoint p.trim = writePoint p := by
  have note : (p.sample.note.filter (· ≠ [])).getD [] = p.sample.note.getD [] := by
    cases p.sample.note with
    | none => rfl
    | some note => cases note <;> rfl
  unfold writePoint
  rw [show p.trim.sample.note.getD [] = p.sample.note.getD [] from note]
  rfl

theorem writePoints_map_trim (points : List Point) :
    writePoints (points.map Point.trim) = writePoints points := by
  induction points with
  | nil => rfl
  | cons p points ih => rw [List.map_cons, writePoints, writePoints, writePoint_trim, ih]

theorem write_map_trim (points : List Point) : write (points.map Point.trim) = write points := by
  rw [write, write, List.length_map, writePoints_map_trim]

end Segment

namespace Point

theorem normalize_ascending (points : List Point) :
    (normalize points).Pairwise (·.time < ·.time) := by
  rw [normalize, ofSamples, List.pairwise_map]
  exact (latest points).ascending

/-- Points in order are left as they are. -/
theorem normalize_of_ascending {points : List Point} (h : points.Pairwise (·.time < ·.time)) :
    normalize points = points := by
  let m : SortedMap Instant Sample :=
    ⟨points.map fun p => (p.time, p.sample), List.pairwise_map.mpr h⟩
  have same : points = ofSamples m := by
    rw [ofSamples, List.map_map]
    exact (List.map_id' points).symm
  rw [same, normalize, latest_ofSamples]

/-- `out` has the last of the points at each instant, in order, save that an annotation without
bytes is none. -/
structure Deduplicated (points out : List Point) : Prop where
  ascending : out.Pairwise (·.time < ·.time)
  times : ∀ t, (∃ p ∈ out, p.time = t) ↔ ∃ p ∈ points, p.time = t
  samples : ∀ p ∈ out, ∃ s, last? points p.time = some s ∧
    p.sample.bits = s.bits ∧ p.sample.precision = s.precision ∧
    p.sample.note = s.note.filter (· ≠ [])

theorem deduplicated_normalize (points : List Point) :
    Deduplicated points ((normalize points).map trim) where
  ascending := List.pairwise_map.mpr (normalize_ascending points)
  times _ := exists_mem_map_trim.trans exists_mem_normalize
  samples p hp := by
    obtain ⟨q, hq, rfl⟩ := List.mem_map.mp hp
    exact ⟨q.sample, mem_normalize.mp hq, rfl, rfl, rfl⟩

end Point

namespace Block

/-- What a block decodes to has the binary form that it was decoded from. -/
theorem encode_deduplicated (points : List Point) :
    encode ((Point.normalize points).map Point.trim) = encode points := by
  have ordered := (Point.deduplicated_normalize points).ascending
  rw [encode, Point.normalize_of_ascending ordered, Segment.write_map_trim, encode]

end Block

end Backfill

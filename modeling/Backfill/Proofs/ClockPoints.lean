import Backfill.Block.Clock
import Backfill.Proofs.Decoding
import Backfill.Proofs.StableOrder

/-!
Points with clock times in binary form. Away from leap seconds they come back as they were; a time
in a leap second is written, too, but it comes back as another.
-/

namespace Backfill

namespace Point

/-- Told by the clock, instants are told apart. -/
theorem last?_map_ofInstant (points : List Point) (t : Instant) :
    last? (points.map (·.map ClockTime.ofInstant)) (ClockTime.ofInstant t) = last? points t := by
  have same (p : Point) :
      (p.map ClockTime.ofInstant).time = ClockTime.ofInstant t ↔ p.time = t := by
    constructor
    · intro h
      have h : ClockTime.ofInstant p.time = ClockTime.ofInstant t := h
      rw [← ClockTime.toInstant_ofInstant p.time, h, ClockTime.toInstant_ofInstant]
    · intro h
      exact congrArg ClockTime.ofInstant h
  rw [last?, last?, List.filter_map, List.getLast?_map, Option.map_map]
  simp only [Function.comp_def, same]
  rfl

theorem last?_map_eq_none {points : List Point} {c : ClockTime}
    (h : ∀ t, ClockTime.ofInstant t ≠ c) :
    last? (points.map (·.map ClockTime.ofInstant)) c = none := by
  rw [← Option.not_isSome_iff_eq_none, last?_isSome]
  intro some
  obtain ⟨_, hp, shown⟩ := some
  obtain ⟨p, _, rfl⟩ := List.mem_map.mp hp
  exact h p.time shown

/-- Points are put in order alike as instants and by the clock. -/
theorem normalize_map_ofInstant (points : List Point) :
    normalize (points.map (·.map ClockTime.ofInstant)) =
      (normalize points).map (·.map ClockTime.ofInstant) := by
  have ordered : ((normalize points).map (·.map ClockTime.ofInstant)).Pairwise
      (·.time < ·.time) :=
    List.pairwise_map.mpr
      ((normalize_ascending points).imp ClockTime.ofInstant_lt_ofInstant.mpr)
  rw [← normalize_of_ascending ordered]
  refine normalize_congr fun c => ?_
  by_cases shown : ∃ t, ClockTime.ofInstant t = c
  · obtain ⟨t, rfl⟩ := shown
    rw [last?_map_ofInstant, last?_map_ofInstant, last?_normalize]
  · have unseen (t : Instant) : ClockTime.ofInstant t ≠ c := fun h => shown ⟨t, h⟩
    rw [last?_map_eq_none unseen, last?_map_eq_none unseen]

theorem map_map_ofInstant (points : List Point) :
    (points.map (·.map ClockTime.ofInstant)).map (·.map ClockTime.toInstant) = points := by
  simp [List.map_map, Function.comp_def, map, ClockTime.toInstant_ofInstant]

/-- None of the times is in a leap second. -/
def Away (points : List Point) : Prop := ∀ p ∈ points, ClockTime.isLeap p.time = false

instance (points : List Point) : Decidable (Away points) :=
  inferInstanceAs (Decidable (∀ p ∈ points, ClockTime.isLeap p.time = false))

theorem away_map_ofInstant (points : List Point) :
    Away (points.map (·.map ClockTime.ofInstant)) := by
  intro p hp
  obtain ⟨q, _, rfl⟩ := List.mem_map.mp hp
  exact ClockTime.isLeap_ofInstant q.time

/-- Away from leap seconds points are instants on the clock. -/
theorem Away.eq_map {points : List Point} (h : Away points) :
    (points.map (·.map ClockTime.toInstant)).map (·.map ClockTime.ofInstant) = points := by
  rw [List.map_map]
  refine (List.map_congr_left fun p hp => ?_).trans points.map_id
  exact congrArg (Point.mk · p.sample) (ClockTime.ofInstant_toInstant (h p hp))

/-- Counted in nanoseconds every time fits, and so do the number of the points that are left and
their annotations. -/
structure Storable (points : List Point) : Prop where
  times : ∀ p ∈ points, FitsWord (ClockTime.toInstant p.time)
  count : (normalize points).length < Segment.wordLimit
  notes : ∀ p ∈ normalize points, (p.sample.note.getD []).length < Segment.wordLimit

end Point

namespace Segment

theorem writeClock_map_ofInstant (points : List Point) :
    writeClock (points.map (·.map ClockTime.ofInstant)) = (write points).toOption := by
  rw [writeClock, Point.map_map_ofInstant]

theorem writeClock_eq_some {points : List Point} {bs : Bytes} :
    writeClock points = some bs ↔ write (points.map (·.map ClockTime.toInstant)) = .ok bs :=
  toOption_eq_some

theorem writeClock_some {points : List Point} :
    (∃ bs, writeClock points = some bs) ↔ points.length < wordLimit ∧
      ∀ p ∈ points, FitsWord (ClockTime.toInstant p.time) ∧
        (p.sample.note.getD []).length < wordLimit := by
  simp only [writeClock_eq_some]
  rw [write_ok, List.length_map, List.forall_mem_map]
  refine and_congr_right fun _ => forall₂_congr fun p _ => ?_
  exact ⟨fun h => ⟨h.time, h.note⟩, fun h => ⟨h.1, h.2⟩⟩

end Segment

namespace Block

theorem encodeClock_map_ofInstant (points : List Point) :
    encodeClock (points.map (·.map ClockTime.ofInstant)) = (encode points).toOption := by
  rw [encodeClock, encode, Point.normalize_map_ofInstant, Segment.writeClock_map_ofInstant]
  cases Segment.write (Point.normalize points) <;> rfl

theorem encodeClock_some {points : List Point} :
    (∃ b, encodeClock points = some b) ↔ Point.Storable points := by
  have written : (∃ b, encodeClock points = some b) ↔
      ∃ bs, Segment.writeClock (Point.normalize points) = some bs := by
    rw [encodeClock]
    cases Segment.writeClock (Point.normalize points) <;> simp
  rw [written, Segment.writeClock_some]
  constructor
  · intro h
    refine ⟨fun p hp => ?_, h.1, fun p hp => (h.2 p hp).2⟩
    obtain ⟨q, hq, same⟩ := Point.exists_mem_normalize.mpr ⟨p, hp, rfl⟩
    exact same ▸ (h.2 q hq).1
  · intro h
    refine ⟨h.count, fun p hp => ⟨?_, h.notes p hp⟩⟩
    obtain ⟨q, hq, same⟩ := Point.exists_mem_normalize.mp ⟨p, hp, rfl⟩
    exact same ▸ h.times q hq

/-- Just the points that fit are encoded, whatever the clock shows. Away from leap seconds they
decode to the last of them at each time, in order, and from there back to the same bytes and
checksum. -/
theorem encodeClock_roundTrip (points : List Point) (start : Instant) :
    ((∃ b, encodeClock points = some b) ↔ Point.Storable points) ∧
    (Point.Away points → ∀ b, encodeClock points = some b →
      ∃ out, b.pointsClock start = .ok out ∧
        Point.Deduplicated points out ∧ encodeClock out = some b) := by
  refine ⟨encodeClock_some, fun away b encoded => ?_⟩
  obtain ⟨instants, rfl⟩ : ∃ instants, List.map (Point.map ClockTime.ofInstant) instants = points :=
    ⟨_, away.eq_map⟩
  rw [encodeClock_map_ofInstant, toOption_eq_some] at encoded
  let out := (Point.normalize instants).map Point.trim
  have shown : out.map (Point.map ClockTime.ofInstant) =
      (Point.normalize (instants.map (Point.map ClockTime.ofInstant))).map Point.trim := by
    rw [Point.normalize_map_ofInstant, List.map_map, List.map_map]
    rfl
  refine ⟨out.map (Point.map ClockTime.ofInstant), ?_, ?_, ?_⟩
  · rw [pointsClock, points_encode encoded start]
    rfl
  · rw [shown]
    exact Point.deduplicated_normalize _
  · rw [encodeClock_map_ofInstant, encode_deduplicated, encoded]
    rfl

/-- Of two points in one second the later stays, behind the point of the second before. -/
theorem encodeClock_roundTrip_twice :
    let point (second : Int) (bits : UInt64) : Point :=
      ⟨ClockTime.ofParts second 0, ⟨bits, .second, none⟩⟩
    let points := [point 60 1, point 59 2, point 60 3]
    Point.Away points ∧ ∃ b, encodeClock points = some b ∧
      (∃ out, b.pointsClock 0 = .ok out ∧
        Point.Deduplicated points out ∧ encodeClock out = some b) ∧
      (b.pointsClock 0).toOption = some [point 59 2, point 60 3] := by
  intro point points
  have away : Point.Away points := by decide
  obtain ⟨_, back⟩ := encodeClock_roundTrip points 0
  exact ⟨away, _, rfl, back away _ rfl, by decide +kernel⟩

/-- A time in a leap second is put in order by the clock and written as the time as far into the
second after it. So times that were apart can come back in the wrong order, and in a block that is
not the one they make themselves. -/
theorem encodeClock_leap :
    let sample := Sample.mk 0x3ff0000000000000 .nanosecond none
    let leap := Point.mk (ClockTime.ofParts 59 1900000000) sample
    let after := Point.mk (ClockTime.ofParts 60 100000000) sample
    let wrong := [Point.mk (ClockTime.ofParts 60 900000000) sample, after]
    ∃ b, encodeClock [leap, after] = some b ∧ leap.time < after.time ∧
      (b.pointsClock 0).toOption = some wrong ∧ ¬ wrong.Pairwise (·.time < ·.time) ∧
      encodeClock wrong ≠ some b := by
  intro sample leap after wrong
  exact ⟨_, rfl, by decide, by decide +kernel, by decide, by decide +kernel⟩

/-- A time in a leap second belongs to the window of the second it is in, and alone it is encoded
there; but what comes back from the block is the time as far into the next second. -/
theorem pointsClock_leap :
    let size := 120 * Duration.second
    let sample := Sample.mk 0x3ff0000000000000 .nanosecond none
    let leap := Point.mk (ClockTime.ofParts 59 1500000000) sample
    ClockTime.ofInstant 0 ≤ leap.time ∧ leap.time < ClockTime.ofInstant size ∧
      ClockTime.windowStart leap.time size = .ok (ClockTime.ofInstant 0) ∧
      Point.normalize [leap] = [leap] ∧ ∃ b, encodeClock [leap] = some b ∧
        (b.pointsClock 0).toOption = some [Point.mk (ClockTime.ofParts 60 500000000) sample] := by
  intro size sample leap
  exact ⟨by decide, by decide, rfl, rfl, _, rfl, by decide +kernel⟩

end Block

namespace Segment

/-- The bytes begin with what is written for the points. None of them is in a leap second, and no
annotation is there without bytes. -/
structure BeginsClock (points : List Point) (bs : Bytes) : Prop where
  away : Point.Away points
  present : ∀ p ∈ points, p.sample.note ≠ some []
  written : ∃ front, writeClock points = some front ∧ front <+: bs

theorem beginsClock_map_ofInstant {points : List Point} {bs : Bytes} :
    BeginsClock (points.map (·.map ClockTime.ofInstant)) bs ↔ Begins points bs := by
  have written (front : Bytes) : writeClock (points.map (·.map ClockTime.ofInstant)) = some front ↔
      write points = .ok front := by
    rw [writeClock_map_ofInstant, toOption_eq_some]
  constructor
  · intro h
    obtain ⟨front, hf, begun⟩ := h.written
    exact ⟨fun p hp => h.present (p.map ClockTime.ofInstant) (List.mem_map_of_mem hp), front,
      (written front).mp hf, begun⟩
  · intro h
    obtain ⟨front, hf, begun⟩ := h.written
    refine ⟨Point.away_map_ofInstant points, fun p hp => ?_, front, (written front).mpr hf, begun⟩
    obtain ⟨q, hq, rfl⟩ := List.mem_map.mp hp
    exact h.present q hq

theorem readClock_eq_ok_iff {bs : Bytes} {points : List Point} :
    readClock bs = .ok points ↔ BeginsClock points bs := by
  rw [readClock, map_eq_ok]
  constructor
  · intro h
    obtain ⟨instants, accepted, rfl⟩ := h
    exact beginsClock_map_ofInstant.mpr (read_eq_ok_iff.mp accepted)
  · intro h
    have same := h.away.eq_map
    rw [← same] at h
    exact ⟨_, read_eq_ok_iff.mpr (beginsClock_map_ofInstant.mp h), same⟩

theorem readClock_eq_error_iff {bs : Bytes} {c : Corruption} :
    readClock bs = .error c ↔ read bs = .error c := by
  rw [readClock]
  cases read bs <;> simp [Except.map]

theorem BeginsClock.append {points : List Point} {bs : Bytes} (h : BeginsClock points bs)
    (more : Bytes) : BeginsClock points (bs ++ more) := by
  obtain ⟨front, written, begun⟩ := h.written
  exact ⟨h.away, h.present, front, written, begun.trans (List.prefix_append bs more)⟩

theorem readClock_rejects {bs : Bytes} (h : ∀ points, ¬ Begins points bs) :
    ∃ c why, readClock bs = .error c ∧ c.toError = .corruptSegment why := by
  obtain ⟨c, why, rejected, error⟩ := read_rejects h
  exact ⟨c, why, readClock_eq_error_iff.mpr rejected, error⟩

/-- What reading `bs` comes to, and what it comes to with some bytes less or more. -/
structure ClockRecognition (bs : Bytes) : Prop where
  accepts : ∀ points, readClock bs = .ok points ↔ BeginsClock points bs
  rejects : (∀ points, ¬ BeginsClock points bs) →
    ∃ c why, readClock bs = .error c ∧ c.toError = .corruptSegment why
  /-- A written segment that has lost some of its last bytes, or all. -/
  cut : ∀ points, writeClock points = some bs → ∀ less, less <+: bs → less ≠ bs →
    ∃ c why, readClock less = .error c ∧ c.toError = .corruptSegment why
  padded : ∀ points, readClock bs = .ok points → ∀ more, readClock (bs ++ more) = .ok points
  /-- Bytes that are wrong stay wrong. -/
  settled : ∀ c, readClock bs = .error c → c.isShort = false →
    ∀ more, readClock (bs ++ more) = .error c

/-- Just what was written is read, up to bytes that follow it, as long as none of it was in a leap
second. What has been cut is noticed even then. -/
theorem readClock_accepts_written (bs : Bytes) : ClockRecognition bs where
  accepts _ := readClock_eq_ok_iff
  rejects h := readClock_rejects fun _ begins => h _ (beginsClock_map_ofInstant.mpr begins)
  cut _ written _ shorter ne :=
    readClock_rejects fun _ => not_begins_cut (writeClock_eq_some.mp written) shorter ne
  padded _ accepted more := readClock_eq_ok_iff.mpr ((readClock_eq_ok_iff.mp accepted).append more)
  settled _ rejected wrong more :=
    readClock_eq_error_iff.mpr (read_error_append (readClock_eq_error_iff.mp rejected) wrong more)

/-- A time in a leap second is written, but never read. -/
theorem readClock_leap :
    let sample := Sample.mk 0x3ff0000000000000 .nanosecond none
    let leap := [Point.mk (ClockTime.ofParts 59 1500000000) sample]
    ∃ bs, writeClock leap = some bs ∧ (∀ p ∈ leap, p.sample.note ≠ some []) ∧
      (readClock bs).toOption = some [Point.mk (ClockTime.ofParts 60 500000000) sample] ∧
      readClock bs ≠ .ok leap := by
  intro sample leap
  refine ⟨_, rfl, by decide, by decide +kernel, fun accepted => ?_⟩
  have read := toOption_eq_some.mpr accepted
  revert read
  decide +kernel

end Segment

end Backfill

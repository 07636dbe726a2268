import Backfill.Proofs.Segment

/-!
Of several points at one instant the last counts, whatever stands between them; and a block has a
point just where one of those that it was made of is.
-/

namespace Backfill

namespace Point

/-- The sample of the last point at `t`. -/
def last? (points : List Point) (t : Instant) : Option Sample :=
  ((points.filter (·.time = t)).getLast?).map (·.sample)

theorem get?_foldl_insert (points : List Point) (m : SortedMap Instant Sample) (t : Instant) :
    (points.foldl (fun m p => m.insert p.time p.sample) m).get? t =
      (last? points t).or (m.get? t) := by
  induction points generalizing m with
  | nil => rfl
  | cons p points ih =>
    rw [List.foldl_cons, ih, SortedMap.get?_insert, last?, last?, List.filter_cons]
    by_cases here : p.time = t
    · rw [if_pos here.symm, if_pos (by simpa using here), List.getLast?_cons]
      cases (points.filter (·.time = t)).getLast? <;> rfl
    · rw [if_neg (Ne.symm here), if_neg (by simpa using here)]

@[simp] theorem get?_latest (points : List Point) (t : Instant) :
    (latest points).get? t = last? points t := by
  rw [latest, get?_foldl_insert]
  exact Option.or_none

theorem mem_ofSamples {m : SortedMap Instant Sample} {p : Point} :
    p ∈ ofSamples m ↔ m.get? p.time = some p.sample := by
  rw [SortedMap.get?_eq_some_iff, ofSamples, List.mem_map]
  constructor
  · intro h
    obtain ⟨e, he, rfl⟩ := h
    exact he
  · intro h
    exact ⟨_, h, rfl⟩

theorem mem_normalize {points : List Point} {p : Point} :
    p ∈ normalize points ↔ last? points p.time = some p.sample := by
  rw [normalize, mem_ofSamples, get?_latest]

/-- Only what comes last at each instant matters. -/
theorem normalize_congr {a b : List Point} (h : ∀ t, last? a t = last? b t) :
    normalize a = normalize b := by
  refine congrArg ofSamples ?_
  ext1 t
  rw [get?_latest, get?_latest, h]

theorem last?_isSome {points : List Point} {t : Instant} :
    (last? points t).isSome = true ↔ ∃ p ∈ points, p.time = t := by
  rw [last?, Option.isSome_map, List.getLast?_isSome]
  simp

/-- What comes later goes first. -/
theorem last?_append (a b : List Point) (t : Instant) :
    last? (a ++ b) t = (last? b t).or (last? a t) := by
  rw [last?, List.filter_append, List.getLast?_append, Option.map_or]
  rfl

theorem ne_nil_iff_last? {points : List Point} :
    points ≠ [] ↔ ∃ t, (last? points t).isSome = true := by
  constructor
  · intro h
    obtain ⟨p, rest, rfl⟩ := List.exists_cons_of_ne_nil h
    exact ⟨p.time, last?_isSome.mpr ⟨p, List.mem_cons_self, rfl⟩⟩
  · intro h
    obtain ⟨t, h⟩ := h
    obtain ⟨p, hp, _⟩ := last?_isSome.mp h
    exact List.ne_nil_of_mem hp

/-- An instant with a point keeps one. -/
theorem exists_mem_normalize {points : List Point} {t : Instant} :
    (∃ p ∈ normalize points, p.time = t) ↔ ∃ p ∈ points, p.time = t := by
  refine Iff.trans ?_ last?_isSome
  rw [Option.isSome_iff_exists]
  constructor
  · intro h
    obtain ⟨p, hp, rfl⟩ := h
    exact ⟨_, mem_normalize.mp hp⟩
  · intro h
    obtain ⟨s, hs⟩ := h
    exact ⟨⟨t, s⟩, mem_normalize.mpr hs, rfl⟩

theorem exists_mem_map_trim {points : List Point} {t : Instant} :
    (∃ p ∈ points.map trim, p.time = t) ↔ ∃ p ∈ points, p.time = t := by
  constructor
  · intro h
    obtain ⟨_, hm, rfl⟩ := h
    obtain ⟨p, hp, rfl⟩ := List.mem_map.mp hm
    exact ⟨p, hp, rfl⟩
  · intro h
    obtain ⟨p, hp, rfl⟩ := h
    exact ⟨p.trim, List.mem_map_of_mem hp, rfl⟩

theorem mem_of_last? {points : List Point} {t : Instant} {s : Sample}
    (h : last? points t = some s) : ⟨t, s⟩ ∈ points := by
  obtain ⟨p, hp, rfl⟩ := Option.map_eq_some_iff.mp h
  obtain ⟨hm, ht⟩ := List.mem_filter.mp (List.mem_of_getLast? hp)
  cases of_decide_eq_true ht
  exact hm

theorem latest_ofSamples (m : SortedMap Instant Sample) : latest (ofSamples m) = m := by
  ext1 t
  rw [get?_latest]
  apply Option.ext
  intro s
  constructor
  · intro h
    exact mem_ofSamples.mp (mem_of_last? h)
  · intro h
    obtain ⟨s', hs'⟩ := Option.isSome_iff_exists.mp
      (last?_isSome.mpr ⟨⟨t, s⟩, mem_ofSamples.mpr h, rfl⟩)
    have same : m.get? t = some s' := mem_ofSamples.mp (mem_of_last? hs')
    rw [hs', ← same, h]

/-- Doing it again changes nothing. -/
theorem normalize_normalize (points : List Point) :
    normalize (normalize points) = normalize points :=
  congrArg ofSamples (latest_ofSamples _)

end Point

namespace Block

/-- The binary form only depends on what comes last at each instant. -/
theorem encode_normalize (points : List Point) :
    encode (Point.normalize points) = encode points := by
  rw [encode, Point.normalize_normalize, encode]

/-- The block can be read and has a point at `t`. -/
def HasPoint (b : Block) (start t : Instant) : Prop :=
  ∃ points, b.points start = .ok points ∧ ∃ p ∈ points, p.time = t

theorem hasPoint_iff {b : Block} {start t : Instant} :
    b.HasPoint start t ↔ ∃ p ∈ (b.points start).toOption.getD [], p.time = t := by
  unfold HasPoint
  cases b.points start with
  | error e => simp [Except.toOption]
  | ok points => simp [Except.toOption]

instance (b : Block) (start t : Instant) : Decidable (b.HasPoint start t) :=
  decidable_of_iff' _ hasPoint_iff

theorem hasPoint_encode {points : List Point} {b : Block} (h : encode points = .ok b)
    (start t : Instant) : b.HasPoint start t ↔ ∃ p ∈ points, p.time = t := by
  refine Iff.trans ?_ Point.exists_mem_normalize
  rw [hasPoint_iff, points_encode h]
  exact Point.exists_mem_map_trim

end Block

end Backfill

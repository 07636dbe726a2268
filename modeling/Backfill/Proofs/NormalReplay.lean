import Backfill.Proofs.Finishing
import Backfill.Proofs.Points

/-!
What a replay comes to depends on its points only through the last one at each instant. A replay
with nothing else left is its normal form, and two replays have the same one as soon as the same
points come last in them and their series have the same tags.
-/

namespace Backfill

namespace SortedMap

variable {κ α β : Type} [LT κ]

def mapValues (f : α → β) (m : SortedMap κ α) : SortedMap κ β :=
  ⟨m.entries.map fun e => (e.1, f e.2), List.pairwise_map.mpr m.ascending⟩

@[simp] theorem get?_mapValues [DecidableEq κ] [KeyOrder κ] (f : α → β) (m : SortedMap κ α)
    (k : κ) : (m.mapValues f).get? k = (m.get? k).map f := by
  apply Option.ext
  intro b
  rw [get?_eq_some_iff, Option.map_eq_some_iff, mapValues, List.mem_map]
  constructor
  · intro h
    obtain ⟨e, he, eq⟩ := h
    cases eq
    exact ⟨e.2, get?_eq_some_iff.mpr he, rfl⟩
  · intro h
    obtain ⟨a, ha, rfl⟩ := h
    exact ⟨(k, a), get?_eq_some_iff.mp ha, rfl⟩

end SortedMap

theorem map_eq_map {α β : Type} {o o' : Option α} {f : α → β}
    (present : o.isSome = true ↔ o'.isSome = true)
    (same : ∀ a a', o = some a → o' = some a' → f a = f a') : o.map f = o'.map f := by
  cases o with
  | none =>
    cases o' with
    | none => rfl
    | some a' => simp at present
  | some a =>
    cases o' with
    | none => simp at present
    | some a' => exact congrArg some (same a a' rfl rfl)

def Gathered.normal (g : Gathered) : Gathered :=
  { g with blocks := g.blocks.mapValues Point.normalize }

def Bucket.normal (b : Bucket) : Bucket := { b with points := Point.normalize b.points }

namespace Replay

variable {r s : Replay} {b : Bucket}

/-- With one point for each instant, in order. -/
def normal (r : Replay) : Replay :=
  { r with series := r.series.mapValues (·.mapValues Gathered.normal) }

theorem buckets_normal (r : Replay) : r.normal.buckets = r.buckets.map Bucket.normal := by
  simp only [buckets, normal, SortedMap.mapValues, Gathered.normal, List.flatMap_map,
    List.map_flatMap, List.map_map]
  rfl

theorem closeBucket_normal (r : Replay) (d : RecoveredData) (b : Bucket) :
    r.closeBucket d b.normal = r.closeBucket d b := by
  simp only [closeBucket, Bucket.normal, Block.encode_normalize]

/-- A replay comes to what its normal form comes to. -/
theorem finish_normal (r : Replay) (missAll : Bool) :
    r.normal.finish missAll = r.finish missAll := by
  have data : r.normal.finishData missAll = r.finishData missAll := by
    have close (d : RecoveredData) (b : Bucket) :
        r.normal.closeBucket d b.normal = r.closeBucket d b := r.closeBucket_normal d b
    rw [finishData, buckets_normal, List.foldlM_map]
    simp only [close]
    rfl
  rw [finish, data]
  rfl

/-- The tags of a series that is held. -/
def tags? (r : Replay) (shard : Shard) (id : SeriesId) : Option Tags :=
  ((r.series.get? shard).bind (·.get? id)).map (·.tags)

theorem tags?_gather (r : Replay) (b : Bucket) (shard : Shard) (id : SeriesId) :
    (r.gather b).tags? shard id =
      if b.shard = shard ∧ b.id = id then some ((r.tags? shard id).getD b.tags)
      else r.tags? shard id := by
  simp only [tags?, gather, SortedMap.get?_update]
  by_cases hs : shard = b.shard
  · subst hs
    by_cases hi : id = b.id
    · subst hi
      cases r.series.get? b.shard with
      | none => simp
      | some all =>
        cases h : all.get? b.id <;> simp [h]
    · cases r.series.get? b.shard <;> simp [hi, Ne.symm hi]
  · simp [hs, Ne.symm hs]

/-- Shards and series are only held with points in them. -/
structure Grounded (r : Replay) : Prop where
  shards : ∀ shard, (r.series.get? shard).isSome = true →
    ∃ id start, r.points shard id start ≠ []
  series : ∀ shard id, (r.tags? shard id).isSome = true → ∃ start, r.points shard id start ≠ []
  filled : r.Filled

theorem Grounded.gather (h : r.Grounded) (hb : b.points ≠ []) : (r.gather b).Grounded := by
  have here : (r.gather b).points b.shard b.id b.start ≠ [] := by
    simp [points_gather, hb]
  have more {shard : Shard} {id : SeriesId} {start : Instant}
      (held : r.points shard id start ≠ []) : (r.gather b).points shard id start ≠ [] := by
    simp [points_gather, held]
  refine ⟨fun shard present => ?_, fun shard id present => ?_, h.filled.gather hb⟩
  · by_cases hs : shard = b.shard
    · subst hs
      exact ⟨_, _, here⟩
    · have old : (r.series.get? shard).isSome = true := by
        simpa [Replay.gather, hs] using present
      obtain ⟨id, start, held⟩ := h.shards shard old
      exact ⟨id, start, more held⟩
  · rw [tags?_gather] at present
    split at present
    · rename_i own
      obtain ⟨rfl, rfl⟩ := own
      exact ⟨_, here⟩
    · obtain ⟨start, held⟩ := h.series shard id present
      exact ⟨start, more held⟩

/-- Points are in a shard, a series and a block that are held. -/
theorem held_of_points {shard : Shard} {id : SeriesId} {start : Instant}
    (h : r.points shard id start ≠ []) :
    (r.series.get? shard).isSome = true ∧ (r.tags? shard id).isSome = true ∧
      (r.held? shard id start).isSome = true := by
  rw [points, held?] at h
  rw [tags?, held?]
  cases hs : r.series.get? shard with
  | none => simp [hs] at h
  | some all =>
    cases hi : all.get? id with
    | none => simp [hs, hi] at h
    | some g =>
      cases ht : g.blocks.get? start with
      | none => simp [hs, hi, ht] at h
      | some points => simp [hi, ht]

theorem Grounded.of_series (h : r.Grounded) (same : s.series = r.series) : s.Grounded := by
  have points (shard : Shard) (id : SeriesId) (start : Instant) :
      s.points shard id start = r.points shard id start := by
    rw [Replay.points, Replay.points, held?, held?, same]
  refine ⟨fun shard present => ?_, fun shard id present => ?_, fun shard id start => ?_⟩
  · rw [same] at present
    obtain ⟨id, start, held⟩ := h.shards shard present
    exact ⟨id, start, points .. ▸ held⟩
  · rw [tags?, same] at present
    obtain ⟨start, held⟩ := h.series shard id present
    exact ⟨start, points .. ▸ held⟩
  · rw [held?, same]
    exact h.filled shard id start

variable {s' : Replay} {tags : SeriesId → Tags} {e : LogEntry} {fate : EntryFate}

/-- The data of a replay that goes on from `r` with entries that have these tags. -/
structure Continues (r : Replay) (tags : SeriesId → Tags) (s : Replay) : Prop where
  missing : s.missingData = r.missingData
  grounded : s.Grounded
  tags : ∀ shard id, s.tags? shard id = r.tags? shard id ∨
    r.tags? shard id = none ∧ s.tags? shard id = some (tags id)

theorem Continues.of_same (h : Continues r tags s) (missing : s'.missingData = s.missingData)
    (series : s'.series = s.series) : Continues r tags s' := by
  refine ⟨missing.trans h.missing, h.grounded.of_series series, fun shard id => ?_⟩
  have same : s'.tags? shard id = s.tags? shard id := by
    rw [tags?, tags?, series]
  rw [same]
  exact h.tags shard id

theorem Continues.gather (h : Continues r tags s) {b : Bucket} (hb : b.points ≠ [])
    (own : b.tags = tags b.id) : Continues r tags (s.gather b) := by
  refine ⟨h.missing, h.grounded.gather hb, fun shard id => ?_⟩
  have before := h.tags shard id
  rw [tags?_gather]
  split
  · rename_i here
    obtain ⟨rfl, rfl⟩ := here
    cases held : s.tags? b.shard b.id with
    | none =>
      rw [held] at before
      rcases before with before | ⟨_, before⟩
      · exact .inr ⟨before.symm, congrArg some own⟩
      · cases before
    | some old =>
      rw [held] at before
      exact before
  · exact before

theorem applyData_gathers (h : s.applyData e = .ok (s', fate)) :
    s' = s ∨ ∃ start, s' = s.gather ⟨e.shard, e.id, e.tags, start, [e.point]⟩ := by
  obtain ⟨start, _, h⟩ := bind_eq_ok.mp h
  dsimp only at h
  split at h
  · cases h
    exact .inl rfl
  · cases h
    exact .inr ⟨start, rfl⟩

theorem Continues.apply (h : Continues r tags s) (own : e.tags = tags e.id)
    (applied : s.apply e = .ok (s', fate)) : Continues r tags s' := by
  obtain ⟨m, same, _, data⟩ := apply_parts applied
  have h : Continues r tags m := h.of_same same.missing same.series
  split at data
  · rcases applyData_gathers data with rfl | ⟨start, rfl⟩
    · exact h
    · exact h.gather (List.cons_ne_nil _ _) own
  · cases data
    exact h

theorem Continues.applyAll {l : List LogEntry} (h : r.Grounded)
    (own : ∀ e ∈ l, e.tags = tags e.id) (applied : r.applyAll l = .ok s) :
    Continues r tags s := by
  refine foldlM_keeps (P := Continues r tags) (fun e he m m' hm step => ?_)
    ⟨rfl, h, fun _ _ => .inl rfl⟩ applied
  obtain ⟨⟨_, fate⟩, one, rfl⟩ := map_eq_ok.mp step
  exact hm.apply (own e he) one

/-- What has gone on from one replay has the same tags. -/
theorem Continues.tags_eq (h : Continues r tags s) (h' : Continues r tags s') {shard : Shard}
    {id : SeriesId} {a b : Tags} (ha : s.tags? shard id = some a)
    (hb : s'.tags? shard id = some b) : a = b := by
  have one := h.tags shard id
  have two := h'.tags shard id
  rw [ha] at one
  rw [hb] at two
  rcases one with one | ⟨none, one⟩
  · rcases two with two | ⟨none, _⟩
    · exact Option.some.inj (one.trans two.symm)
    · rw [none] at one
      cases one
  · rcases two with two | ⟨_, two⟩
    · rw [none] at two
      cases two
    · exact Option.some.inj (one.trans two.symm)

/-- The same points come last. -/
def SamePoints (r s : Replay) : Prop := ∀ shard id start t,
  Point.last? (r.points shard id start) t = Point.last? (s.points shard id start) t

theorem SamePoints.symm (h : SamePoints r s) : SamePoints s r :=
  fun shard id start t => (h shard id start t).symm

theorem SamePoints.ne_nil (h : SamePoints r s) {shard : Shard} {id : SeriesId} {start : Instant}
    (hr : r.points shard id start ≠ []) : s.points shard id start ≠ [] := by
  obtain ⟨t, ht⟩ := Point.ne_nil_iff_last?.mp hr
  rw [h] at ht
  exact Point.ne_nil_iff_last?.mpr ⟨t, ht⟩

/-- What one replay holds, the other holds. -/
theorem Grounded.present (hr : r.Grounded) (same : SamePoints r s) (shard : Shard) :
    ((r.series.get? shard).isSome = true → (s.series.get? shard).isSome = true) ∧ ∀ id,
      ((r.tags? shard id).isSome = true → (s.tags? shard id).isSome = true) ∧ ∀ start,
        ((r.held? shard id start).isSome = true → (s.held? shard id start).isSome = true) := by
  refine ⟨fun h => ?_, fun id => ⟨fun h => ?_, fun start h => ?_⟩⟩
  · obtain ⟨id, start, held⟩ := hr.shards shard h
    exact (held_of_points (same.ne_nil held)).1
  · obtain ⟨start, held⟩ := hr.series shard id h
    exact (held_of_points (same.ne_nil held)).2.1
  · obtain ⟨points, hp⟩ := Option.isSome_iff_exists.mp h
    have held : r.points shard id start ≠ [] := by
      intro none
      rw [Replay.points, hp, Option.getD_some] at none
      rw [none] at hp
      exact hr.filled shard id start hp
    exact (held_of_points (same.ne_nil held)).2.2

theorem Grounded.series_normal (hr : r.Grounded) (hs : s.Grounded) (same : SamePoints r s)
    (tags : ∀ shard id a b, r.tags? shard id = some a → s.tags? shard id = some b → a = b) :
    r.normal.series = s.normal.series := by
  -- level by level: both have the same keys, and under each of them the same below
  ext1 shard
  have forth := hr.present same shard
  have back := hs.present same.symm shard
  simp only [normal, SortedMap.get?_mapValues]
  refine map_eq_map ⟨forth.1, back.1⟩ fun all all' ha ha' => ?_
  ext1 id
  have tagsHere : (r.tags? shard id = (all.get? id).map (·.tags)) ∧
      s.tags? shard id = (all'.get? id).map (·.tags) := by
    simp [tags?, ha, ha']
  have series : (r.tags? shard id).isSome = true ↔ (s.tags? shard id).isSome = true :=
    ⟨(forth.2 id).1, (back.2 id).1⟩
  simp only [tagsHere, Option.isSome_map] at series
  rw [SortedMap.get?_mapValues, SortedMap.get?_mapValues]
  refine map_eq_map series fun g g' hg hg' => ?_
  have tags := tags shard id g.tags g'.tags (by simp [tagsHere, hg]) (by simp [tagsHere, hg'])
  have blocks : g.normal.blocks = g'.normal.blocks := by
    ext1 start
    have heldHere : (r.held? shard id start = g.blocks.get? start) ∧
        s.held? shard id start = g'.blocks.get? start := by
      simp [held?, ha, ha', hg, hg']
    have block : (r.held? shard id start).isSome = true ↔ (s.held? shard id start).isSome = true :=
      ⟨(forth.2 id).2 start, (back.2 id).2 start⟩
    simp only [heldHere] at block
    simp only [Gathered.normal, SortedMap.get?_mapValues]
    refine map_eq_map block fun points points' hp hp' => Point.normalize_congr fun t => ?_
    have last := same shard id start t
    rw [Replay.points, Replay.points, heldHere.1, heldHere.2, hp, hp'] at last
    exact last
  rw [Gathered.normal, Gathered.normal, tags]
  exact congrArg (Gathered.mk g'.tags) blocks

theorem normal_eq (request : s.request = r.request) (snapshots : s.snapshots = r.snapshots)
    (series : s.normal.series = r.normal.series)
    (indexed : RecoveredIndex.mk s.index s.missingIndex = ⟨r.index, r.missingIndex⟩)
    (missing : s.missingData = r.missingData) : s.normal = r.normal := by
  obtain ⟨index, missingIndex⟩ := RecoveredIndex.mk.inj indexed
  cases r
  cases s
  simp only [normal, mk.injEq] at *
  exact ⟨request, snapshots, series, index, missing, missingIndex⟩

end Replay

end Backfill

import Backfill.CommitLog.Replay
import Backfill.Proofs.Folds
import Backfill.SortedMap.Lemmas

/-!
What a replay has gathered for a block of a series, step by step: the points of a restored volume,
and then those of the log.
-/

namespace Backfill

/-- Every series of the volume can be read. -/
def SnapshotSeries.legible (start : Instant) (volume : List SnapshotSeries) : Bool :=
  volume.all fun s => (s.block.points start).toOption.isSome

/-- The points of a series, in the order of the volume. -/
def SnapshotSeries.pointsOf (start : Instant) (id : SeriesId) (volume : List SnapshotSeries) :
    List Point :=
  volume.flatMap fun s => if s.id = id then (s.block.points start).toOption.getD [] else []

namespace Replay

variable {r r' : Replay}

/-- What was gathered for a block of a series. -/
def held? (r : Replay) (shard : Shard) (id : SeriesId) (start : Instant) : Option (List Point) :=
  ((r.series.get? shard).bind (·.get? id)).bind (·.blocks.get? start)

def points (r : Replay) (shard : Shard) (id : SeriesId) (start : Instant) : List Point :=
  (r.held? shard id start).getD []

/-- Nothing is held without points. -/
def Filled (r : Replay) : Prop := ∀ shard id start, r.held? shard id start ≠ some []

theorem held?_gather (r : Replay) (b : Bucket) (shard : Shard) (id : SeriesId) (start : Instant) :
    (r.gather b).held? shard id start =
      if b.shard = shard ∧ b.id = id ∧ b.start = start
      then some (r.points b.shard b.id b.start ++ b.points) else r.held? shard id start := by
  simp only [points, held?, gather, SortedMap.get?_update]
  by_cases hs : shard = b.shard
  · subst hs
    by_cases hi : id = b.id
    · subst hi
      by_cases ht : start = b.start
      · subst ht
        cases r.series.get? b.shard with
        | none => simp
        | some all =>
          cases h : all.get? b.id <;> simp [h]
      · cases r.series.get? b.shard with
        | none => simp [ht, Ne.symm ht]
        | some all =>
          cases h : all.get? b.id <;> simp [h, ht, Ne.symm ht]
    · cases r.series.get? b.shard <;> simp [hi, Ne.symm hi]
  · simp [hs, Ne.symm hs]

theorem points_gather (r : Replay) (b : Bucket) (shard : Shard) (id : SeriesId) (start : Instant) :
    (r.gather b).points shard id start = r.points shard id start ++
      if b.shard = shard ∧ b.id = id ∧ b.start = start then b.points else [] := by
  rw [points, held?_gather]
  split
  · rename_i h
    obtain ⟨rfl, rfl, rfl⟩ := h
    rfl
  · rw [List.append_nil]
    rfl

theorem Filled.gather (h : r.Filled) {b : Bucket} (hb : b.points ≠ []) : (r.gather b).Filled := by
  intro shard id start
  rw [held?_gather]
  split
  · simp [hb]
  · exact h shard id start

/-- A replay of the same request with the same volumes restored. -/
structure SameSource (r r' : Replay) : Prop where
  request : r'.request = r.request
  snapshots : r'.snapshots = r.snapshots

theorem foldl_gather (l : List Bucket) (h : r.Filled) (hl : ∀ b ∈ l, b.points ≠ []) :
    (l.foldl gather r).Filled ∧ SameSource r (l.foldl gather r) ∧ ∀ shard id start,
      (l.foldl gather r).points shard id start = r.points shard id start ++
        l.flatMap fun b => if b.shard = shard ∧ b.id = id ∧ b.start = start then b.points else [] := by
  induction l generalizing r with
  | nil => exact ⟨h, ⟨rfl, rfl⟩, fun _ _ _ => (List.append_nil _).symm⟩
  | cons b l ih =>
    obtain ⟨filled, same, points⟩ := ih (h.gather (hl b List.mem_cons_self))
      fun c hc => hl c (List.mem_cons_of_mem _ hc)
    refine ⟨filled, ⟨same.request, same.snapshots⟩, fun shard id start => ?_⟩
    rw [List.foldl_cons, points, points_gather, List.append_assoc, List.flatMap_cons]

theorem readVolume_ok (info : SnapshotInfo) {volume : List SnapshotSeries}
    (h : SnapshotSeries.legible info.start volume = true) :
    readVolume info volume = .ok (volume.map fun s =>
      ⟨info.shard, s.id, s.tags, info.start, (s.block.points info.start).toOption.getD []⟩) := by
  induction volume with
  | nil => rfl
  | cons s volume ih =>
    simp only [SnapshotSeries.legible, List.all_cons, Bool.and_eq_true] at h
    have rest := ih h.2
    rw [readVolume] at rest ⊢
    rw [List.mapM_cons, rest]
    cases hs : s.block.points info.start with
    | error e => simp [hs, Except.toOption] at h
    | ok points => simp [hs, Except.toOption, Except.map, bind, Except.bind, pure, Except.pure]

theorem readVolume_error (info : SnapshotInfo) {volume : List SnapshotSeries}
    (h : SnapshotSeries.legible info.start volume = false) :
    ∃ e, readVolume info volume = .error e := by
  induction volume with
  | nil => cases h
  | cons s volume ih =>
    simp only [readVolume] at ih ⊢
    rw [List.mapM_cons]
    cases hs : s.block.points info.start with
    | error e => exact ⟨e, rfl⟩
    | ok points =>
      have rest : SnapshotSeries.legible info.start volume = false := by
        simpa [SnapshotSeries.legible, hs, Except.toOption] using h
      obtain ⟨e, he⟩ := ih rest
      rw [he]
      exact ⟨e, rfl⟩

/-- What a block starts from, before the log. -/
structure Seed where
  info : Option SnapshotInfo
  points : SeriesId → List Point

def seed (r : Replay) (shard : Shard) (start : Instant) : Seed :=
  ⟨r.snapshotAt shard start, fun id => r.points shard id start⟩

/-- With a volume on top. -/
def Seed.restore (s : Seed) (asked : TimeSet) (info : SnapshotInfo)
    (volume : List SnapshotSeries) : Seed :=
  ⟨some info, fun id =>
    s.points id ++ (SnapshotSeries.pointsOf info.start id volume).filter (·.time ∈ asked)⟩

theorem flatMap_filter_points {l : List Bucket} {f : Bucket → List Point}
    (h : ∀ b, b.points = [] → f b = []) :
    (l.filter (!·.points.isEmpty)).flatMap f = l.flatMap f := by
  induction l with
  | nil => rfl
  | cons b l ih =>
    rw [List.filter_cons]
    split
    · rw [List.flatMap_cons, List.flatMap_cons, ih]
    · rename_i empty
      have none : b.points = [] := by simpa using empty
      rw [List.flatMap_cons, ih, h b none, List.nil_append]

/-- The part of a volume that is asked for, under the key of each series. -/
def wanted (info : SnapshotInfo) (asked : TimeSet) (volume : List SnapshotSeries) : List Bucket :=
  volume.map fun s => ⟨info.shard, s.id, s.tags, info.start,
    ((s.block.points info.start).toOption.getD []).filter (·.time ∈ asked)⟩

theorem flatMap_wanted (info : SnapshotInfo) (asked : TimeSet) (volume : List SnapshotSeries)
    (shard : Shard) (id : SeriesId) (start : Instant) :
    ((wanted info asked volume).filter (!·.points.isEmpty)).flatMap
        (fun b => if b.shard = shard ∧ b.id = id ∧ b.start = start then b.points else []) =
      if info.shard = shard ∧ info.start = start then
        (SnapshotSeries.pointsOf info.start id volume).filter (·.time ∈ asked)
      else [] := by
  rw [flatMap_filter_points fun b hb => by split <;> simp [hb], wanted, List.flatMap_map]
  split
  · rename_i here
    obtain ⟨rfl, rfl⟩ := here
    rw [SnapshotSeries.pointsOf, List.filter_flatMap]
    refine congrArg (List.flatMap · volume) (funext fun s => ?_)
    by_cases hs : s.id = id <;> simp [hs]
  · rename_i elsewhere
    rw [List.flatMap_eq_nil_iff]
    intro s _
    rw [if_neg fun h => elsewhere ⟨h.1, h.2.2⟩]

theorem snapshotAt_put {m m' : SortedMap Shard (SortedMap Instant SnapshotInfo)} (same : m' = m)
    (info : SnapshotInfo) (shard : Shard) (start : Instant) :
    ((m'.update info.shard .empty (·.insert info.start info)).get? shard).bind (·.get? start) =
      if info.shard = shard ∧ info.start = start then some info
      else (m.get? shard).bind (·.get? start) := by
  rw [same, SortedMap.get?_update]
  by_cases hs : shard = info.shard
  · subst hs
    by_cases ht : start = info.start
    · subst ht
      simp
    · cases m.get? info.shard <;> simp [ht, Ne.symm ht]
  · simp [hs, Ne.symm hs]

theorem restore_ok {info : SnapshotInfo} {volume : List SnapshotSeries}
    (asked : (r.dataRanges.get info.shard).isEmpty = false) (filled : r.Filled)
    (h : r.restore info volume = .ok r') :
    r'.Filled ∧ r'.request = r.request ∧ ∀ shard start, r'.seed shard start =
      if info.shard = shard ∧ info.start = start ∧ SnapshotSeries.legible info.start volume = true
      then (r.seed shard start).restore (r.dataRanges.get info.shard) info volume
      else r.seed shard start := by
  obtain ⟨block, _, h⟩ := map_eq_ok.mp h
  simp only [asked, Bool.false_eq_true, ↓reduceIte] at h
  cases legible : SnapshotSeries.legible info.start volume with
  | false =>
    obtain ⟨e, he⟩ := readVolume_error info legible
    rw [he] at h
    subst h
    exact ⟨filled, rfl, fun shard start => by simp; rfl⟩
  | true =>
    rw [readVolume_ok info legible] at h
    simp only [List.map_map, Function.comp_def] at h
    obtain ⟨filled', same, points⟩ := foldl_gather
      ((wanted info (r.dataRanges.get info.shard) volume).filter (!·.points.isEmpty)) filled
      (by simp)
    subst h
    refine ⟨filled', same.request, fun shard start => ?_⟩
    have restored (id : SeriesId) := (points shard id start).trans
      (congrArg (r.points shard id start ++ ·) (flatMap_wanted info _ volume shard id start))
    have snapshots := snapshotAt_put same.snapshots info shard start
    apply (congr (congrArg Seed.mk snapshots) (funext restored)).trans
    by_cases here : info.shard = shard ∧ info.start = start
    · simp only [here, and_self, ↓reduceIte]
      obtain ⟨rfl, rfl⟩ := here
      rfl
    · simp only [and_true, if_neg here, List.append_nil]
      rfl

end Replay

/-- The entry goes into the block at `start`: it is asked for, and newer than what the block was
restored from. -/
def LogEntry.counts (e : LogEntry) (asked : TimeSet) (size : Duration) (start : Instant)
    (restored : Option SnapshotInfo) : Bool :=
  e.point.time ∈ asked && (Instant.windowStart e.point.time size).toOption = some start &&
    !restored.any (e.point.time ≤ ·.time)

namespace Replay

variable {r r' : Replay} {e : LogEntry} {fate : EntryFate}

/-- Indexing leaves the data alone. -/
structure SameData (r r' : Replay) : Prop extends SameSource r r' where
  series : r'.series = r.series
  missing : r'.missingData = r.missingData

theorem applyIndex_ok (h : r.applyIndex e = .ok r') : SameData r r' := by
  obtain ⟨start, _, h⟩ := bind_eq_ok.mp h
  dsimp only at h
  split at h
  · cases h
    exact ⟨⟨rfl, rfl⟩, rfl, rfl⟩
  · split at h
    · cases h
      exact ⟨⟨rfl, rfl⟩, rfl, rfl⟩
    · obtain ⟨block, _, h⟩ := bind_eq_ok.mp h
      cases h
      exact ⟨⟨rfl, rfl⟩, rfl, rfl⟩

/-- Index first, then data, each as far as the entry is asked for there. -/
theorem apply_parts (h : r.apply e = .ok (r', fate)) : ∃ m, SameData r m ∧
    (if e.point.time ∈ r.indexRanges.get e.shard then r.applyIndex e = .ok m else m = r) ∧
    (if e.point.time ∈ r.dataRanges.get e.shard then m.applyData e = .ok (r', fate)
      else r' = m) := by
  -- the data part, after whatever was indexed
  have data {m : Replay} (same : SameData r m) {other : EntryFate}
      (h : (if e.point.time ∈ m.dataRanges.get e.shard then m.applyData e
        else .ok (m, other)) = .ok (r', fate)) :
      if e.point.time ∈ r.dataRanges.get e.shard then m.applyData e = .ok (r', fate)
        else r' = m := by
    rw [dataRanges, same.request] at h
    split
    · rename_i asked
      exact (if_pos asked).symm.trans h
    · rename_i unasked
      rw [dataRanges] at unasked
      rw [if_neg unasked] at h
      cases h
      rfl
  unfold apply at h
  dsimp only at h
  split at h
  · rename_i asked
    obtain ⟨m, hm, h⟩ := bind_eq_ok.mp h
    have same := applyIndex_ok hm
    refine ⟨m, same, ?_, data same h⟩
    rw [if_pos (of_decide_eq_true asked)]
    exact hm
  · rename_i unasked
    have same : SameData r r := ⟨⟨rfl, rfl⟩, rfl, rfl⟩
    refine ⟨r, same, ?_, data same h⟩
    rw [if_neg fun asked => unasked (decide_eq_true asked)]

/-- The points that an entry brings to a block. -/
def brings (r : Replay) (e : LogEntry) (shard : Shard) (id : SeriesId) (start : Instant) :
    List Point :=
  if e.shard = shard ∧ e.id = id ∧ e.counts (r.dataRanges.get shard) r.blockSize start
    (r.snapshotAt shard start) then [e.point] else []

theorem brings_eq (r : Replay) (asked : e.point.time ∈ r.dataRanges.get e.shard) {start : Instant}
    (hstart : Instant.windowStart e.point.time r.blockSize = .ok start) (shard : Shard)
    (id : SeriesId) (other : Instant) :
    r.brings e shard id other =
      if (e.shard = shard ∧ e.id = id ∧ start = other) ∧
        (r.snapshotAt e.shard start).any (e.point.time ≤ ·.time) = false
      then [e.point] else [] := by
  unfold brings LogEntry.counts
  rw [hstart]
  have same : (e.shard = shard ∧ e.id = id ∧ (e.point.time ∈ r.dataRanges.get shard &&
        (Except.ok start : Except Fault Instant).toOption = some other &&
          !(r.snapshotAt shard other).any (e.point.time ≤ ·.time)) = true) ↔
      (e.shard = shard ∧ e.id = id ∧ start = other) ∧
        (r.snapshotAt e.shard start).any (e.point.time ≤ ·.time) = false := ?_
  · simp only [same]
  constructor
  · intro hm
    obtain ⟨rfl, rfl, h⟩ := hm
    simp only [asked, decide_true, Except.toOption, Option.some.injEq, Bool.true_and,
      Bool.and_eq_true, decide_eq_true_eq, Bool.not_eq_true'] at h
    obtain ⟨rfl, fresh⟩ := h
    exact ⟨⟨rfl, rfl, rfl⟩, fresh⟩
  · intro hm
    obtain ⟨⟨rfl, rfl, rfl⟩, fresh⟩ := hm
    exact ⟨rfl, rfl, by simp [asked, fresh, Except.toOption]⟩

theorem SameSource.brings_eq (same : SameSource r r') (e : LogEntry) (shard : Shard) (id : SeriesId)
    (start : Instant) : r'.brings e shard id start = r.brings e shard id start := by
  rw [brings, brings, dataRanges, dataRanges, blockSize, blockSize, same.request, snapshotAt,
    snapshotAt, same.snapshots]

theorem applyData_ok (filled : r.Filled) (asked : e.point.time ∈ r.dataRanges.get e.shard)
    (h : r.applyData e = .ok (r', fate)) :
    r'.Filled ∧ SameSource r r' ∧ ∀ shard id start,
      r'.points shard id start = r.points shard id start ++ r.brings e shard id start := by
  obtain ⟨start, hstart, h⟩ := bind_eq_ok.mp h
  dsimp only at h
  split at h
  · rename_i held
    cases h
    refine ⟨filled, ⟨rfl, rfl⟩, fun shard id other => ?_⟩
    rw [brings_eq r asked hstart, if_neg (by simp [held]), List.append_nil]
  · rename_i fresh
    cases h
    refine ⟨filled.gather (by simp), ⟨rfl, rfl⟩, fun shard id other => ?_⟩
    rw [brings_eq r asked hstart, points_gather]
    simp only [Bool.not_eq_true] at fresh
    simp only [fresh, and_true]

theorem apply_ok (filled : r.Filled) (h : r.apply e = .ok (r', fate)) :
    r'.Filled ∧ SameSource r r' ∧ ∀ shard id start,
      r'.points shard id start = r.points shard id start ++ r.brings e shard id start := by
  obtain ⟨m, same, _, h⟩ := apply_parts h
  have ranges : m.dataRanges = r.dataRanges := congrArg (·.data.ranges) same.request
  have held (shard : Shard) (id : SeriesId) (start : Instant) :
      m.held? shard id start = r.held? shard id start := by
    rw [held?, held?, same.series]
  have filled' : m.Filled := fun shard id start => by rw [held]; exact filled shard id start
  split at h
  · rename_i asked
    rw [← ranges] at asked
    obtain ⟨kept, source, points⟩ := applyData_ok filled' asked h
    refine ⟨kept, ⟨source.request.trans same.request, source.snapshots.trans same.snapshots⟩,
      fun shard id start => ?_⟩
    rw [points, same.brings_eq, Replay.points, held, Replay.points]
  · rename_i unasked
    cases h
    refine ⟨filled', same.toSameSource, fun shard id start => ?_⟩
    have none : r.brings e shard id start = [] := by
      apply if_neg
      intro hx
      obtain ⟨rfl, _, h⟩ := hx
      simp only [LogEntry.counts, Bool.and_eq_true, decide_eq_true_eq] at h
      exact unasked h.1.1
    rw [none, List.append_nil, Replay.points, held, Replay.points]

/-- A stretch of the log. -/
def applyAll (r : Replay) (l : List LogEntry) : Except Fault Replay :=
  l.foldlM (fun r e => (r.apply e).map (·.1)) r

theorem applyAll_ok {l : List LogEntry} (filled : r.Filled) (h : r.applyAll l = .ok r') :
    r'.Filled ∧ SameSource r r' ∧ ∀ shard id start,
      r'.points shard id start = r.points shard id start ++ l.flatMap (r.brings · shard id start) := by
  induction l generalizing r with
  | nil =>
    cases h
    exact ⟨filled, ⟨rfl, rfl⟩, fun _ _ _ => (List.append_nil _).symm⟩
  | cons e l ih =>
    rw [applyAll, List.foldlM_cons] at h
    obtain ⟨m, hm, h⟩ := bind_eq_ok.mp h
    obtain ⟨⟨m, fate⟩, applied, rfl⟩ := map_eq_ok.mp hm
    obtain ⟨filled', same, points⟩ := apply_ok filled applied
    obtain ⟨filled'', same', points'⟩ := ih filled' h
    refine ⟨filled'', ⟨same'.request.trans same.request, same'.snapshots.trans same.snapshots⟩,
      fun shard id start => ?_⟩
    have rest : l.flatMap (m.brings · shard id start) = l.flatMap (r.brings · shard id start) :=
      congrArg (List.flatMap · l) (funext fun e => same.brings_eq e shard id start)
    rw [points', points, rest, List.append_assoc, List.flatMap_cons]

end Replay

end Backfill

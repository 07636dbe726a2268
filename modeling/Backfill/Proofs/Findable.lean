import Backfill.Proofs.LogContents
import Backfill.Proofs.Points
import Backfill.Proofs.ReplayIndex

/-!
Data that a read of the commit log recovers is found through the index it recovers, or else reported
missing there, wherever the log has a write of it. What comes from a snapshot alone is not indexed.
-/

namespace Backfill

namespace RecoveredIndex

/-- The series is in the index block of `t`, or `t` is missing. -/
def Finds (f : RecoveredIndex) (size : Duration) (shard : Shard) (id : SeriesId) (t : Instant) :
    Prop :=
  (∃ start, Instant.windowStart t size = .ok start ∧ f.index.holds start id = true) ∨
    (shard, t) ∈ f.missing

instance (f : RecoveredIndex) (size : Duration) (shard : Shard) (id : SeriesId) (t : Instant) :
    Decidable (f.Finds size shard id t) :=
  decidable_of_iff ((Instant.windowStart t size).toOption.any (f.index.holds · id) = true ∨
    (shard, t) ∈ f.missing) (by
      unfold Finds
      cases Instant.windowStart t size <;> simp [Except.toOption])

variable {f f' : RecoveredIndex} {asked : Coverage} {size : Duration} {e : LogEntry}
  {start : Instant}

theorem Step.holds (step : Step asked size e start f f') {other : Instant} {id : SeriesId}
    (h : f.index.holds other id = true) : f'.index.holds other id = true := by
  rw [Index.holds_eq] at h ⊢
  cases step with
  | known held => exact h
  | entered fresh valid =>
    rw [Index.document?_insert]
    split
    · rfl
    · exact h
  | refused fresh invalid _ =>
    rw [Index.document?_touch]
    exact h

/-- What can be found can still be found after any other entry. -/
theorem Step.stays (step : Step asked size e start f f') (canonical : f.missing.Canonical)
    {shard : Shard} {id : SeriesId} {t : Instant} (h : f.Finds size shard id t) :
    f'.Finds size shard id t := by
  rcases h with ⟨other, hother, held⟩ | missing
  · exact .inl ⟨other, hother, step.holds held⟩
  · refine .inr ?_
    cases step with
    | known held => exact missing
    | entered fresh valid => exact missing
    | refused fresh invalid _ => exact (Coverage.mem_addSet canonical).mpr (.inl missing)

theorem Pass.stays (pass : Pass asked size e f f') (canonical : f.missing.Canonical)
    {shard : Shard} {id : SeriesId} {t : Instant} (h : f.Finds size shard id t) :
    f'.Finds size shard id t := by
  cases pass with
  | unasked out => exact h
  | asked ha hstart step => exact step.stays canonical h

/-- An entry that is asked for can be found once it has been looked at. -/
theorem Pass.finds (pass : Pass asked size e f f') (hs : 0 < size)
    (canonical : f.missing.Canonical) (ha : e.point.time ∈ asked.get e.shard) :
    f'.Finds size e.shard e.id e.point.time := by
  cases pass with
  | unasked out => exact absurd ha out
  | @asked _ start _ hstart step =>
    cases step with
    | known held => exact .inl ⟨start, hstart, held⟩
    | entered fresh valid =>
      refine .inl ⟨start, hstart, ?_⟩
      rw [Index.holds_eq, Index.document?_insert, if_pos ⟨rfl, rfl⟩]
      rfl
    | refused fresh invalid _ =>
      refine .inr ((Coverage.mem_addSet canonical).mpr (.inr ⟨rfl, ?_⟩))
      exact TimeSet.mem_clip.mpr ⟨ha, Instant.mem_window hs hstart⟩

end RecoveredIndex

namespace Replay

variable {r r' : Replay}

/-- Every entry of the log that is asked for can be found in the end. -/
theorem applyAll_finds {l : List LogEntry} (hs : 0 < r.indexBlockSize)
    (unmarked : r.indexed.Unmarked r.indexRanges) (h : r.applyAll l = .ok r') {e : LogEntry}
    (he : e ∈ l) (asked : e.point.time ∈ r.indexRanges.get e.shard) :
    r'.indexed.Finds r.indexBlockSize e.shard e.id e.point.time := by
  refine foldlM_reaches
    (P := fun s => s.request = r.request ∧ s.indexed.Unmarked r.indexRanges)
    (Q := fun s => s.indexed.Finds r.indexBlockSize e.shard e.id e.point.time) he
    (fun b _ s s' keep applied => ?_) (fun s s' keep applied => ?_)
    (fun b _ s s' keep found applied => ?_) ⟨rfl, unmarked⟩ h
  · obtain ⟨request, pass⟩ := indexed_of_applied keep.1 applied
    exact ⟨request, pass.unmarked keep.2⟩
  · obtain ⟨_, pass⟩ := indexed_of_applied keep.1 applied
    exact pass.finds hs keep.2.canonical asked
  · obtain ⟨_, pass⟩ := indexed_of_applied keep.1 applied
    exact pass.stays keep.2.canonical found

/-- Finishing takes nothing away that could be found. -/
theorem finishIndex_finds {missAll : Bool} {f : RecoveredIndex}
    (unmarked : r.indexed.Unmarked r.indexRanges) (h : r.finishIndex missAll = .ok f)
    {size : Duration} {shard : Shard} {id : SeriesId} {t : Instant}
    (found : r.indexed.Finds size shard id t) : f.Finds size shard id t := by
  obtain ⟨missing, _, documents, _⟩ := finishIndex_ok unmarked h
  rcases found with ⟨start, hstart, held⟩ | lost
  · refine .inl ⟨start, hstart, ?_⟩
    rw [Index.holds_eq, documents, ← Index.holds_eq]
    exact held
  · refine .inr ?_
    rw [missing]
    split
    · exact (Coverage.mem_union unmarked.canonical).mpr (.inl lost)
    · exact lost

/-- A block has only points that were gathered for it. -/
theorem finishData_hasPoint {missAll : Bool} {d : RecoveredData} (h : r.finishData missAll = .ok d)
    {shard : Shard} {id : SeriesId} {start t : Instant} {b : Block}
    (hb : d.block? shard id start = some b) (has : b.HasPoint start t) :
    ∃ p ∈ r.points shard id start, p.time = t := by
  rw [finishData_ok h] at hb
  obtain ⟨points, held, encoded⟩ := Option.bind_eq_some_iff.mp hb
  have encoded : Block.encode points = .ok b := by
    cases he : Block.encode points with
    | error e =>
      rw [he] at encoded
      cases encoded
    | ok b' =>
      rw [he] at encoded
      cases encoded
      rfl
  rw [Replay.points, held]
  exact (Block.hasPoint_encode encoded start t).mp has

end Replay

namespace CommitLog

variable {files : Files} {r : Request} {replay replay' : Replay}

/-- A snapshot has a point of the series at `t`, and the run may restore it. -/
def Restorable (files : Files) (r : Request) (shard : Shard) (id : SeriesId) (t : Instant) : Prop :=
  r.data.options.persistence.kind = .snapshot ∧
    ∃ asked infos, files.list r.id asked = .ok infos ∧ ∃ info ∈ infos, info.shard = shard ∧
      ∃ volume, files.read info = .ok volume ∧
        ∃ s ∈ volume, s.id = id ∧ s.block.HasPoint info.start t

/-- Every point so far is from a snapshot. -/
structure FromSnapshots (files : Files) (r : Request) (replay : Replay) : Prop where
  filled : replay.Filled
  points : ∀ shard id start, ∀ p ∈ replay.points shard id start,
    Restorable files r shard id p.time

theorem fromSnapshots_ofRequest (files : Files) (r : Request) :
    FromSnapshots files r (.ofRequest r) :=
  ⟨fun _ _ _ => nofun, fun _ _ _ _ => nofun⟩

/-- What is there after a volume is restored was there before, or is in the volume and asked for. -/
theorem mem_points_restore {info : SnapshotInfo} {volume : List SnapshotSeries}
    (filled : replay.Filled) (h : replay.restore info volume = .ok replay') :
    replay'.Filled ∧ replay'.request = replay.request ∧
      ∀ shard id start, ∀ p ∈ replay'.points shard id start, p ∈ replay.points shard id start ∨
        info.shard = shard ∧ info.start = start ∧ p.time ∈ replay.dataRanges.get shard ∧
          ∃ s ∈ volume, s.id = id ∧ s.block.HasPoint start p.time := by
  cases none : (replay.dataRanges.get info.shard).isEmpty with
  | true =>
    obtain ⟨_, _, rfl⟩ := map_eq_ok.mp h
    rw [if_pos none]
    exact ⟨filled, rfl, fun _ _ _ _ hp => .inl hp⟩
  | false =>
    obtain ⟨filled', request, seed⟩ := Replay.restore_ok none filled h
    refine ⟨filled', request, fun shard id start p hp => ?_⟩
    change p ∈ (replay'.seed shard start).points id at hp
    rw [seed] at hp
    split at hp
    · rename_i here
      obtain ⟨rfl, rfl, _⟩ := here
      rcases List.mem_append.mp hp with hp | hp
      · exact .inl hp
      · obtain ⟨hp, asked⟩ := List.mem_filter.mp hp
        obtain ⟨s, hs, hp⟩ := List.mem_flatMap.mp hp
        split at hp
        · rename_i same
          refine .inr ⟨rfl, rfl, of_decide_eq_true asked, s, hs, same, ?_⟩
          exact Block.hasPoint_iff.mpr ⟨p, hp, rfl⟩
        · cases hp
    · exact .inl hp

/-- What every volume of the shard keeps, and every gap that is noted. -/
theorem restoreShard_keeps {P : Replay → Prop} {e : Shard × TimeSet}
    (gap : ∀ m missingData, P m → P { m with missingData })
    (volume : ∀ infos info volume m m', files.list r.id e.1 = .ok infos → info ∈ infos →
      files.read info = .ok volume → P m → m.restore info volume = .ok m' → P m')
    (h : (restoreShard files r replay e).outcome = .ok replay') (before : P replay) :
    P replay' := by
  obtain ⟨_, _, h⟩ := Trail.outcome_bind_eq_ok.mp h
  split at h
  · cases h
    exact gap replay _ before
  · rename_i infos listed
    obtain ⟨chosen, hc, h⟩ := Trail.outcome_bind_eq_ok.mp h
    rw [Trail.outcome_foldEach] at h
    refine foldlM_keeps (fun v hv m m' before step => ?_) before h
    obtain ⟨_, _, step⟩ := Trail.outcome_bind_eq_ok.mp step
    split at step
    · rename_i series read
      have pick := SnapshotInfo.select_chosen (Run.ofFaulty_eq_ok.mp hc) v.1 v.2
        (SortedMap.get?_eq_some_iff.mpr hv)
      exact volume infos v.2 series m m' listed pick.listed read before (Run.ofFaulty_eq_ok.mp step)
    · obtain ⟨block, _, rfl⟩ := map_eq_ok.mp (Run.ofFaulty_eq_ok.mp step)
      exact gap m _ before

theorem FromSnapshots.restore {asked : Shard} {infos : List SnapshotInfo} {info : SnapshotInfo}
    {volume : List SnapshotSeries} (before : FromSnapshots files r replay)
    (snapshot : r.data.options.persistence.kind = .snapshot)
    (listed : files.list r.id asked = .ok infos) (hi : info ∈ infos)
    (read : files.read info = .ok volume) (h : replay.restore info volume = .ok replay') :
    FromSnapshots files r replay' := by
  obtain ⟨filled, _, points⟩ := mem_points_restore before.filled h
  refine ⟨filled, fun shard id start p hp => ?_⟩
  rcases points shard id start p hp with hp | ⟨hshard, rfl, _, s, hs, same, has⟩
  · exact before.points shard id start p hp
  · exact ⟨snapshot, asked, infos, listed, info, hi, hshard, volume, read, s, hs, same, has⟩

/-- Restoring brings nothing that is not in a snapshot. -/
theorem restoreAll_fromSnapshots (h : restoreAll files r = .ok replay) :
    FromSnapshots files r replay := by
  unfold restoreAll at h
  split at h
  · rename_i snapshot
    rw [Trail.outcome_foldEach] at h
    refine foldlM_keeps (P := FromSnapshots files r) (fun e _ m m' before step => ?_)
      (fromSnapshots_ofRequest files r) h
    exact restoreShard_keeps (fun m _ before => ⟨before.filled, before.points⟩)
      (fun infos info volume m m' listed hi read before step =>
        before.restore snapshot listed hi read step) step before
  · cases h
    exact fromSnapshots_ofRequest files r

/-- The entries that are replayed. -/
def Files.log (files : Files) : List LogEntry := beforeError (files.entries.toOption.getD [])

/-- The log has a write of the series at `t`. -/
def Logged (log : List LogEntry) (r : Request) (shard : Shard) (id : SeriesId) (t : Instant) :
    Prop :=
  ∃ e ∈ log, e.namespaceId = r.id ∧ e.shard = shard ∧ e.id = id ∧ e.point.time = t

theorem Replayed.finds {entries : List LogEntry} {missAll : Bool} {f : Recovery}
    (indexed : r.policy.indexed = true) (h : Replayed files entries missAll r f) {shard : Shard}
    {id : SeriesId} {start t : Instant} {b : Block} (hb : f.data.block? shard id start = some b)
    (has : b.HasPoint start t) (asked : (shard, t) ∈ r.index.ranges) :
    f.index.Finds r.policy.indexBlockSize shard id t ∨
      ¬ Logged entries r shard id t ∧ Restorable files r shard id t := by
  obtain ⟨seeded, done, data, index, hseeded, hdone, finished, rfl⟩ := h
  have same := (Replay.SameIndex.lasting _).restoreAll hseeded ⟨rfl, rfl⟩
  have request : seeded.request = r := same.request
  have before := restoreAll_fromSnapshots hseeded
  have unmarked : seeded.indexed.Unmarked seeded.indexRanges := by
    rw [same.indexed]
    exact RecoveredIndex.unmarked_empty _
  have ranges : seeded.indexRanges = r.index.ranges := by
    simp [Replay.indexRanges, request, Request.indexRanges, indexed]
  have size : seeded.indexBlockSize = r.policy.indexBlockSize := by
    rw [Replay.indexBlockSize, request]
  obtain ⟨terms, after⟩ := Replay.applyAll_unmarked unmarked hdone
  obtain ⟨hdata, hindex⟩ := Replay.finish_eq_ok.mp finished
  by_cases logged : Logged entries r shard id t
  · obtain ⟨e, he, own, rfl, rfl, rfl⟩ := logged
    have mine : e ∈ entries.filter (·.namespaceId = r.id) :=
      List.mem_filter.mpr ⟨he, by simpa using own⟩
    have found := Replay.applyAll_finds (size ▸ r.policy.indexBlockSize_pos indexed) unmarked hdone
      mine (ranges ▸ asked)
    rw [size] at found
    have kept : done.indexRanges = seeded.indexRanges := by
      rw [Replay.indexRanges, Replay.indexRanges, terms]
    exact .inl (Replay.finishIndex_finds (kept ▸ after) hindex found)
  · obtain ⟨p, hp, rfl⟩ := Replay.finishData_hasPoint hdata hb has
    obtain ⟨_, _, points⟩ := Replay.applyAll_ok before.filled hdone
    rw [points] at hp
    rcases List.mem_append.mp hp with hp | hp
    · exact .inr ⟨logged, before.points shard id start p hp⟩
    · obtain ⟨e, he, hp⟩ := List.mem_flatMap.mp hp
      obtain ⟨he, own⟩ := List.mem_filter.mp he
      unfold Replay.brings at hp
      split at hp
      · rename_i here
        cases List.mem_singleton.mp hp
        exact absurd ⟨e, he, by simpa using own, here.1, here.2.1, rfl⟩ logged
      · cases hp

/-- Where a block that is returned has a point and the index is asked for, the series can be found
or the instant is missing, save for points that are in a snapshot and not in the log. -/
theorem read_findable {o : Options} {requests : List Request}
    (distinct : (requests.map (·.id)).Nodup)
    (onClock : (read o requests).outcome ≠ .error (.fault .dateOverflow)) :
    ∃ found, (read o requests).outcome = .ok found ∧
      ∀ r ∈ requests, r.policy.indexed = true → ∃ f, found.get? r.id = some f ∧
        ∀ shard id start b t, f.data.block? shard id start = some b → b.HasPoint start t →
          (shard, t) ∈ r.index.ranges →
            f.index.Finds r.policy.indexBlockSize shard id t ∨
              ¬ Logged o.files.log r shard id t ∧ Restorable o.files r shard id t := by
  cases h : (read o requests).outcome with
  | error e =>
    rw [runsOut_read o requests e h] at h
    exact absurd h onClock
  | ok found =>
    refine ⟨found, rfl, fun r hr indexed => ?_⟩
    cases opens : o.files.entries with
    | error e =>
      -- nothing was recovered
      refine ⟨_, read_unopened distinct opens h hr, fun shard id start b t hb => ?_⟩
      split at hb <;> cases hb
    | ok items =>
      obtain ⟨f, hf, idle, live⟩ := read_replayed distinct opens h hr
      refine ⟨f, hf, fun shard id start b t hb has asked => ?_⟩
      have log : o.files.log = beforeError items := by
        rw [Files.log, opens]
        rfl
      rw [log]
      cases hi : isIdle r with
      | false => exact (live hi).finds indexed hb has asked
      | true =>
        rw [idle hi] at hb
        cases hb

/-- The log has a write that the snapshot has as well. The data passes it over, the index does
not. -/
theorem read_findable_logged :
    let at_ (t : Instant) : Point := ⟨t, ⟨0, .second, none⟩⟩
    let block := (Block.encode [at_ 2]).toOption.getD ⟨[], 0⟩
    let files : Files := ⟨.ok [.ok ⟨[7], 0, [1], .empty, at_ 2⟩],
      fun id shard => .ok [⟨id, shard, 0, 1, 4, true⟩], fun _ => .ok [⟨[1], .empty, block⟩]⟩
    let policy : Policy :=
      ⟨{ blockSize := 10, indexed := true, indexBlockSize := 15 }, by decide, by decide⟩
    let options : RunOptions := ⟨⟨false, .snapshot⟩, .ofOrigin [] 0⟩
    let asked : Ask := ⟨.ofShards [0] ⟨0, 10⟩, options⟩
    let request : Request := ⟨[7], policy, [0], none, asked, asked⟩
    ∃ found, (read ⟨files, false⟩ [request]).outcome = .ok found ∧
      ∃ f, found.get? [7] = some f ∧ f.data.block? 0 [1] 0 = some block ∧
        f.index.Finds 15 0 [1] 2 := by
  intro at_ block files policy options asked request
  have data : (read ⟨files, false⟩ [request]).outcome.toOption.bind (fun found =>
      (found.get? [7]).bind (·.data.block? 0 [1] 0)) = some block := by decide +kernel
  have has : block.HasPoint 0 2 := by decide +kernel
  have logged : Logged files.log request 0 [1] 2 :=
    ⟨⟨[7], 0, [1], .empty, at_ 2⟩, by decide, rfl, rfl, rfl, rfl⟩
  have distinct : ([request].map (·.id)).Nodup := List.nodup_singleton _
  obtain ⟨found, ok, all⟩ := read_findable (o := ⟨files, false⟩) distinct fun overflow => by
      rw [overflow] at data
      cases data
  obtain ⟨f, hf, finds⟩ := all request List.mem_cons_self rfl
  have hf : found.get? [7] = some f := hf
  rw [ok, Except.toOption, Option.bind_some, hf, Option.bind_some] at data
  rcases finds 0 [1] 0 block 2 data has (by decide) with h | h
  · exact ⟨found, ok, f, hf, data, h⟩
  · exact absurd logged h.1

/-- A series that only a snapshot has is recovered but cannot be found, though nothing is
missing. -/
theorem read_unfindable :
    let at_ (t : Instant) : Point := ⟨t, ⟨0, .second, none⟩⟩
    let block := (Block.encode [at_ 2]).toOption.getD ⟨[], 0⟩
    let files : Files := ⟨.ok [], fun id shard => .ok [⟨id, shard, 0, 1, 4, true⟩],
      fun _ => .ok [⟨[1], .empty, block⟩]⟩
    let policy : Policy :=
      ⟨{ blockSize := 10, indexed := true, indexBlockSize := 15 }, by decide, by decide⟩
    let options : RunOptions := ⟨⟨false, .snapshot⟩, .ofOrigin [] 0⟩
    let asked : Ask := ⟨.ofShards [0] ⟨0, 10⟩, options⟩
    let request : Request := ⟨[7], policy, [0], none, asked, asked⟩
    ∃ found, (read ⟨files, false⟩ [request]).outcome = .ok found ∧
      ∃ f, found.get? [7] = some f ∧ f.data.block? 0 [1] 0 = some block ∧ block.HasPoint 0 2 ∧
        (0, 2) ∈ asked.ranges ∧ ¬ f.index.Finds 15 0 [1] 2 := by
  intro at_ block files policy options asked request
  have lost : (read ⟨files, false⟩ [request]).outcome.toOption.bind (fun found =>
      (found.get? [7]).map fun f => (f.data.block? 0 [1] 0, decide (f.index.Finds 15 0 [1] 2))) =
        some (some block, false) := by decide +kernel
  have has : block.HasPoint 0 2 := by decide +kernel
  cases ok : (read ⟨files, false⟩ [request]).outcome with
  | error e =>
    rw [ok] at lost
    cases lost
  | ok found =>
    rw [ok] at lost
    obtain ⟨f, hf, same⟩ := Option.map_eq_some_iff.mp lost
    obtain ⟨held, unfound⟩ := Prod.mk.inj same
    exact ⟨found, rfl, f, hf, held, has, by decide, of_decide_eq_false unfound⟩

end CommitLog

end Backfill

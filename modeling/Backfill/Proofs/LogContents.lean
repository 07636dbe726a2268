import Backfill.Proofs.Finishing
import Backfill.Proofs.NamespaceReads
import Backfill.Proofs.Overflow

/-!
What a read of the commit log finds: for every series and window, the points that came to it, in one
block.
-/

namespace Backfill.CommitLog

/-- The points that come to the block of a series at `start`: of what is asked for, first those of
the volume that the block is restored from, and then those of the log that are newer. -/
def content (files : Files) (entries : List LogEntry) (r : Request) (shard : Shard) (id : SeriesId)
    (start : Instant) : List Point :=
  let asked := r.data.ranges.get shard
  let volume := restored? files r shard start
  (volume.elim [] fun v => (SnapshotSeries.pointsOf start id v.2).filter (·.time ∈ asked)) ++
    ((entries.filter (·.namespaceId = r.id)).filter fun e => e.shard = shard && e.id = id &&
      e.counts asked r.policy.blockSize start (volume.map (·.1))).map (·.point)

variable {files : Files} {r : Request}

theorem content_of_empty (entries : List LogEntry) {shard : Shard}
    (h : r.data.ranges.get shard = .empty) (id : SeriesId) (start : Instant) :
    content files entries r shard id start = [] := by
  have none (t : Instant) : t ∉ r.data.ranges.get shard := by
    rw [h]
    exact TimeSet.not_mem_empty t
  simp [content, restored?_of_empty h, LogEntry.counts, none]

theorem flatMap_brings (replay : Replay) (l : List LogEntry) (shard : Shard) (id : SeriesId)
    (start : Instant) :
    l.flatMap (replay.brings · shard id start) =
      (l.filter fun e => e.shard = shard && e.id = id && e.counts (replay.dataRanges.get shard)
        replay.blockSize start (replay.snapshotAt shard start)).map (·.point) := by
  induction l with
  | nil => rfl
  | cons e l ih =>
    rw [List.flatMap_cons, ih, List.filter_cons, Replay.brings]
    by_cases here : e.shard = shard ∧ e.id = id ∧ e.counts (replay.dataRanges.get shard)
        replay.blockSize start (replay.snapshotAt shard start) = true
    · rw [if_pos here, if_pos (by simp [here])]
      rfl
    · rw [if_neg here, if_neg (by simpa [and_assoc] using here)]
      rfl

/-- What a replay has gathered in the end. -/
theorem points_eq_content {entries : List LogEntry} {seeded done : Replay}
    (filled : seeded.Filled) (request : seeded.request = r)
    (seed : ∀ shard start, seeded.seed shard start = restoredSeed files r shard start)
    (h : seeded.applyAll (entries.filter (·.namespaceId = r.id)) = .ok done) (shard : Shard)
    (id : SeriesId) (start : Instant) :
    done.points shard id start = content files entries r shard id start := by
  obtain ⟨_, _, points⟩ := Replay.applyAll_ok filled h
  have ranges : seeded.dataRanges = r.data.ranges := by rw [Replay.dataRanges, request]
  have size : seeded.blockSize = r.policy.blockSize := by rw [Replay.blockSize, request]
  have first : seeded.points shard id start = (restoredSeed files r shard start).points id :=
    congrArg (·.points id) (seed shard start)
  have volume : seeded.snapshotAt shard start = (restoredSeed files r shard start).info :=
    congrArg (·.info) (seed shard start)
  rw [points, flatMap_brings, ranges, size, volume, first, content, restoredSeed]
  cases hv : restored? files r shard start with
  | none => rfl
  | some v =>
    obtain ⟨_, _, chosen⟩ := restored?_chosen hv
    rw [← chosen.start]
    rfl

theorem Replayed.block?_eq {entries : List LogEntry} {missAll : Bool} {f : Recovery}
    (listed : ∀ shard infos, files.list r.id shard = .ok infos → ∀ info ∈ infos, info.shard = shard)
    (h : Replayed files entries missAll r f) (shard : Shard) (id : SeriesId) (start : Instant) :
    f.data.block? shard id start =
      if content files entries r shard id start = [] then none
      else (Block.encode (content files entries r shard id start)).toOption := by
  obtain ⟨seeded, done, data, index, hseeded, hdone, finished, rfl⟩ := h
  obtain ⟨filled, request, seed⟩ := restoreAll_ok listed hseeded
  obtain ⟨filled', _⟩ := Replay.applyAll_ok filled hdone
  obtain ⟨hdata, _⟩ := Replay.finish_eq_ok.mp finished
  apply (Replay.finishData_ok hdata shard id start).trans
  rw [← points_eq_content filled request seed hdone shard id start, Replay.points]
  have held := filled' shard id start
  cases hp : done.held? shard id start with
  | none => rfl
  | some points =>
    rw [hp] at held
    have some : points ≠ [] := fun none => held (congrArg some none)
    simp [some]

/-- There is a block just when points came to it that can be written, and it holds the last of them
at each instant. The times of entries are instants; one in a leap second would be put in its window,
but come back from the block as another time. -/
theorem read_blocks {o : Options} {requests : List Request} {items : List (Except Error LogEntry)}
    (distinct : (requests.map (·.id)).Nodup)
    (listed : ∀ id shard infos, o.files.list id shard = .ok infos →
      ∀ info ∈ infos, info.shard = shard)
    (opens : o.files.entries = .ok items)
    (onClock : (read o requests).outcome ≠ .error (.fault .dateOverflow)) :
    ∃ found, (read o requests).outcome = .ok found ∧
      ∀ r ∈ requests, ∃ f, found.get? r.id = some f ∧ ∀ shard id start,
        let points := content o.files (beforeError items) r shard id start
        ((f.data.block? shard id start).isSome ↔
          points ≠ [] ∧ ∃ b, Block.encode points = .ok b) ∧
        ∀ b, f.data.block? shard id start = some b →
          b.points start = .ok ((Point.normalize points).map Point.trim) := by
  cases h : (read o requests).outcome with
  | error e =>
    rw [runsOut_read o requests e h] at h
    exact absurd h onClock
  | ok found =>
    refine ⟨found, rfl, fun r hr => ?_⟩
    obtain ⟨f, hf, idle, live⟩ := read_replayed distinct opens h hr
    refine ⟨f, hf, fun shard id start => ?_⟩
    have block : f.data.block? shard id start =
        if content o.files (beforeError items) r shard id start = [] then none
        else (Block.encode (content o.files (beforeError items) r shard id start)).toOption := by
      cases busy : isIdle r with
      | false => exact (live busy).block?_eq (listed r.id) shard id start
      | true =>
        have none : r.data.ranges.isEmpty = true := by
          unfold isIdle at busy
          exact (Bool.and_eq_true_iff.mp busy).1
        rw [content_of_empty _ (Coverage.get_of_isEmpty none shard), if_pos rfl, idle busy]
        rfl
    dsimp only
    rw [block]
    split
    · rename_i none
      simp [none]
    · rename_i some
      cases encoded : Block.encode (content o.files (beforeError items) r shard id start) with
      | error e => simp [Except.toOption]
      | ok b =>
        refine ⟨by simp [Except.toOption, some], fun b' hb => ?_⟩
        cases hb
        exact Block.points_encode encoded start

/-- A block restored from a snapshot that was taken at 4, with a log that breaks off. -/
theorem read_blocks_snapshot :
    let at_ (t : Instant) (bits : UInt64) : Point := ⟨t, ⟨bits, .second, none⟩⟩
    let entry (t : Instant) (bits : UInt64) : LogEntry := ⟨[7], 0, [1], .empty, at_ t bits⟩
    let items : List (Except Error LogEntry) :=
      [.ok (entry 3 20), .ok (entry 6 21), .ok (entry 5 22), .ok (entry 6 23),
        .error (.commitLog "torn"), .ok (entry 7 24)]
    let block := (Block.encode [at_ 2 10, at_ 9 11]).toOption.getD ⟨[], 0⟩
    let files : Files := ⟨.ok items, fun id shard => .ok [⟨id, shard, 0, 1, 4, true⟩],
      fun _ => .ok [⟨[1], .empty, block⟩]⟩
    let policy : Policy := ⟨{ blockSize := 10 }, by decide, by decide⟩
    let options : RunOptions := ⟨⟨false, .snapshot⟩, .ofOrigin [] 0⟩
    let request : Request :=
      ⟨[7], policy, [0], none, ⟨.ofShards [0] ⟨1, 9⟩, options⟩, ⟨.empty, options⟩⟩
    ∃ found, (read ⟨files, false⟩ [request]).outcome = .ok found ∧
      ∃ f, found.get? [7] = some f ∧ ∃ b, f.data.block? 0 [1] 0 = some b ∧
        b.points 0 = .ok [at_ 2 10, at_ 5 22, at_ 6 23] := by
  intro at_ entry items block files policy options request
  have content : content files (beforeError items) request 0 [1] 0 =
      [at_ 2 10, at_ 6 21, at_ 5 22, at_ 6 23] := by decide +kernel
  have ends : (read ⟨files, false⟩ [request]).outcome.toOption.isSome = true := by decide +kernel
  have encodes : (Block.encode [at_ 2 10, at_ 6 21, at_ 5 22, at_ 6 23]).toOption.isSome := by
    decide +kernel
  have listed : ∀ id shard infos, files.list id shard = .ok infos →
      ∀ info ∈ infos, info.shard = shard := by
    intro id shard infos h info hi
    cases h
    cases List.mem_singleton.mp hi
    rfl
  have distinct : ([request].map (·.id)).Nodup := List.nodup_singleton _
  have onClock : (read ⟨files, false⟩ [request]).outcome ≠ .error (.fault .dateOverflow) := by
    intro overflow
    rw [overflow] at ends
    cases ends
  obtain ⟨found, ok, all⟩ := read_blocks distinct listed rfl onClock
  obtain ⟨f, hf, blocks⟩ := all request List.mem_cons_self
  obtain ⟨present, decodes⟩ := blocks 0 [1] 0
  rw [content] at present decodes
  have encoded : ∃ b, Block.encode [at_ 2 10, at_ 6 21, at_ 5 22, at_ 6 23] = .ok b := by
    cases h : Block.encode [at_ 2 10, at_ 6 21, at_ 5 22, at_ 6 23] with
    | error e =>
      rw [h] at encodes
      cases encodes
    | ok b => exact ⟨b, rfl⟩
  obtain ⟨b, hb⟩ := Option.isSome_iff_exists.mp (present.mpr ⟨by simp, encoded⟩)
  exact ⟨found, ok, f, hf, b, hb, decodes b hb⟩

end Backfill.CommitLog

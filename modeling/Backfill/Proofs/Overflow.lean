import Backfill.CommitLog.Source
import Backfill.Proofs.Folds
import Backfill.Proofs.Coverage

/-!
The one thing that can take a read of the commit log down: a date that the clock cannot tell.
-/

namespace Backfill

/-- If anything, the clock runs out. -/
abbrev ClockOnly {α : Type} (x : Except Fault α) : Prop := FailsOnly .dateOverflow x

theorem Instant.clockOnly_shift (t : Instant) (d : Duration) : ClockOnly (shift t d) := by
  unfold shift
  split
  · exact failsOnly_ok _
  · exact fun e h => by cases h; rfl

theorem Instant.clockOnly_windowStart (t : Instant) {size : Duration} (hs : 0 < size) :
    ClockOnly (windowStart t size) := by
  unfold windowStart
  split
  · exact failsOnly_ok _
  · rw [if_neg (Int.ne_of_gt hs)]
    exact failsOnly_ok _

theorem Interval.clockOnly_ofStart (start : Instant) (size : Duration) :
    ClockOnly (ofStart start size) := (Instant.clockOnly_shift start size).map _

theorem Interval.clockOnly_walk (size : Duration) (stop : Instant) (fuel : Nat)
    (b : Instant) : ClockOnly (walk (Instant.shift · size) stop fuel b).outcome := by
  induction fuel generalizing b with
  | zero => exact failsOnly_ok _
  | succ fuel ih =>
    unfold walk
    have shift := Instant.clockOnly_shift b size
    cases h : Instant.shift b size with
    | error f =>
      rw [h] at shift
      exact fun e he => by cases he; exact shift f rfl
    | ok next =>
      dsimp only
      split
      · rw [Trail.outcome_bind]
        exact (failsOnly_ok _).bind fun _ _ => ih next
      · exact failsOnly_ok _

theorem Interval.clockOnly_windows (r : Interval) {size : Duration} (hs : 0 < size) :
    ClockOnly (r.windows size).outcome := by
  unfold windows windowsUpTo
  split
  · exact failsOnly_ok _
  · rw [Trail.outcome_bind]
    exact (Instant.clockOnly_windowStart r.start hs).bind fun b _ =>
      clockOnly_walk _ _ _ b

theorem TimeSet.clockOnly_slices (s : TimeSet) {size : Duration} (hs : 0 < size) :
    ClockOnly (s.slices size).outcome := by
  obtain ⟨l⟩ := s
  unfold slices
  dsimp only
  induction l with
  | nil => exact failsOnly_ok _
  | cons r l ih =>
    rw [Trail.each, Trail.outcome_bind]
    exact (Interval.clockOnly_windows r hs).bind fun _ _ => ih

theorem SnapshotInfo.clockOnly_select (set : TimeSet) (size : Duration)
    (infos : List SnapshotInfo) : ClockOnly (select set size infos) := by
  refine failsOnly_foldlM (fun held info _ => ?_) _
  unfold consider
  split
  · exact (Interval.clockOnly_ofStart _ _).map _
  · exact failsOnly_ok _

namespace Replay

variable (r : Replay)

theorem clockOnly_restore (info : SnapshotInfo) (volume : List SnapshotSeries) :
    ClockOnly (r.restore info volume) := (Interval.clockOnly_ofStart _ _).map _

/-- Only an index that is kept has ranges. -/
theorem indexRanges_of_unindexed (h : r.request.policy.indexed = false) :
    r.indexRanges = .empty := by
  simp [indexRanges, Request.indexRanges, h]

theorem indexBlockSize_pos_of_asked {r : Replay} {t : Instant} {shard : Shard}
    (asked : t ∈ r.indexRanges.get shard) : 0 < r.indexBlockSize := by
  refine r.request.policy.indexBlockSize_pos ?_
  cases kept : r.request.policy.indexed with
  | true => rfl
  | false =>
    rw [r.indexRanges_of_unindexed kept] at asked
    exact absurd asked (Coverage.not_mem_empty (shard, t))

theorem clockOnly_applyIndex (e : LogEntry) (hs : 0 < r.indexBlockSize) :
    ClockOnly (r.applyIndex e) := by
  refine (Instant.clockOnly_windowStart _ hs).bind fun start _ => ?_
  dsimp only
  split
  · exact failsOnly_ok _
  · split
    · exact failsOnly_ok _
    · exact (Interval.clockOnly_ofStart _ _).bind fun _ _ => failsOnly_ok _

theorem clockOnly_applyData (e : LogEntry) : ClockOnly (r.applyData e) := by
  refine (Instant.clockOnly_windowStart _ r.request.policy.blockSize_pos).bind fun start _ => ?_
  dsimp only
  split
  · exact failsOnly_ok _
  · exact failsOnly_ok _

theorem clockOnly_apply (e : LogEntry) : ClockOnly (r.apply e) := by
  have data (m : Replay) (fate : EntryFate) : ClockOnly
      (if e.point.time ∈ m.dataRanges.get e.shard then m.applyData e else .ok (m, fate)) := by
    split
    · exact m.clockOnly_applyData e
    · exact failsOnly_ok _
  unfold apply
  dsimp only
  split
  · rename_i indexed
    have hs := indexBlockSize_pos_of_asked (of_decide_eq_true indexed)
    exact (r.clockOnly_applyIndex e hs).bind fun m _ => data m _
  · exact data r _

theorem clockOnly_closeBucket (d : RecoveredData) (b : Bucket) : ClockOnly (r.closeBucket d b) := by
  unfold closeBucket
  split
  · exact failsOnly_ok _
  · exact (Interval.clockOnly_ofStart _ _).map _

theorem clockOnly_finishIndex (missAll : Bool) : ClockOnly (r.finishIndex missAll) := by
  unfold finishIndex
  dsimp only
  cases indexed : r.request.policy.indexed with
  | true =>
    have hs := r.request.policy.indexBlockSize_pos indexed
    refine (failsOnly_foldlM (fun index e _ => ?_) _).bind fun _ _ => failsOnly_ok _
    exact ((TimeSet.clockOnly_slices e.2 hs).map _).map _
  | false =>
    rw [r.indexRanges_of_unindexed indexed, Coverage.empty_fulfilled]
    exact failsOnly_ok _

theorem clockOnly_finish (missAll : Bool) : ClockOnly (r.finish missAll) := by
  refine FailsOnly.bind ?_ fun _ _ => (r.clockOnly_finishIndex missAll).bind fun _ _ =>
    failsOnly_ok _
  exact (failsOnly_foldlM (fun d b _ => r.clockOnly_closeBucket d b) _).bind fun _ _ =>
    failsOnly_ok _

end Replay

namespace CommitLog

/-- If anything, the clock runs out. -/
abbrev RunsOut {α : Type} (x : Run α) : Prop := FailsOnly (.fault .dateOverflow) x.outcome

theorem runsOut_ofFaulty {α : Type} {x : Except Fault α} (h : ClockOnly x) :
    RunsOut (Run.ofFaulty x) := h.mapError _

theorem runsOut_bind {α β : Type} {x : Run α} {f : α → Run β} (hx : RunsOut x)
    (hf : ∀ a, RunsOut (f a)) : RunsOut (x >>= f) := by
  change FailsOnly _ (Trail.bind x f).outcome
  rw [Trail.outcome_bind]
  exact hx.bind fun a _ => hf a

theorem runsOut_pure {α : Type} (a : α) : RunsOut (pure a) := failsOnly_ok a

theorem runsOut_note (e : Event) : RunsOut (Trail.note e) := failsOnly_ok _

theorem runsOut_foldEach {α β : Type} {f : β → α → Run β} (h : ∀ b a, RunsOut (f b a)) (b : β)
    (l : List α) : RunsOut (Trail.foldEach f b l) := by
  rw [RunsOut, Trail.outcome_foldEach]
  exact failsOnly_foldlM (fun b a _ => h b a) b

theorem runsOut_restoreVolume (files : Files) (size : Duration) (shard : Shard) (replay : Replay)
    (e : Instant × SnapshotInfo) : RunsOut (restoreVolume files size shard replay e) := by
  refine runsOut_bind (runsOut_note _) fun _ => ?_
  split
  · exact runsOut_ofFaulty (replay.clockOnly_restore _ _)
  · exact runsOut_ofFaulty ((Interval.clockOnly_ofStart _ _).map _)

theorem runsOut_restoreShard (files : Files) (r : Request) (replay : Replay) (e : Shard × TimeSet) :
    RunsOut (restoreShard files r replay e) := by
  refine runsOut_bind (runsOut_note _) fun _ => ?_
  split
  · exact runsOut_pure _
  · refine runsOut_bind (runsOut_ofFaulty (SnapshotInfo.clockOnly_select _ _ _)) fun _ => ?_
    exact runsOut_foldEach (fun replay e => runsOut_restoreVolume files _ _ replay e) _ _

theorem runsOut_restoreRequest (files : Files) (replays : Replays) (r : Request) :
    RunsOut (restoreRequest files replays r) := by
  unfold restoreRequest
  split
  · exact runsOut_bind (runsOut_foldEach (runsOut_restoreShard files r) _ _) fun _ =>
      runsOut_pure _
  · exact runsOut_pure _

theorem runsOut_applyEntry (replays : Replays) (e : LogEntry) :
    RunsOut (applyEntry replays e) := by
  unfold applyEntry
  split
  · exact runsOut_bind (runsOut_note _) fun _ => runsOut_pure _
  · rename_i replay _
    exact runsOut_bind (runsOut_ofFaulty (replay.clockOnly_apply e)) fun _ =>
      runsOut_bind (runsOut_note _) fun _ => runsOut_pure _

theorem clockOnly_finishRequest (missAll : Bool) (s : Replays × Recoveries) (r : Request) :
    ClockOnly (finishRequest missAll s r) := by
  unfold finishRequest
  split
  · exact failsOnly_ok _
  · rename_i replay _
    exact (replay.clockOnly_finish missAll).bind fun _ _ => failsOnly_ok _

theorem runsOut_readAll (o : Options) (idle : Recoveries) (replays : Replays)
    (requests : List Request) : RunsOut (readAll o idle replays requests) := by
  refine runsOut_bind (runsOut_foldEach (runsOut_restoreRequest o.files) _ _) fun _ =>
    runsOut_bind (runsOut_note _) fun _ => ?_
  split
  · exact runsOut_pure _
  · refine runsOut_bind (runsOut_foldEach runsOut_applyEntry _ _) fun _ => ?_
    refine runsOut_bind (runsOut_ofFaulty ?_) fun _ => runsOut_pure _
    exact failsOnly_foldlM (fun s r _ => clockOnly_finishRequest _ s r) _

/-- A read of the commit log comes to its end, unless a date is beyond the clock. -/
theorem runsOut_read (o : Options) (requests : List Request) : RunsOut (read o requests) := by
  unfold read
  dsimp only
  split
  · exact runsOut_pure _
  · refine runsOut_bind (runsOut_readAll _ _ _ _) fun _ => ?_
    exact runsOut_bind (failsOnly_ok _) fun _ => runsOut_pure _

end CommitLog

end Backfill

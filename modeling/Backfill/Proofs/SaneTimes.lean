import Backfill.Proofs.Findable
import Backfill.Proofs.IndexedEntries
import Backfill.Proofs.Registrations
import Backfill.Proofs.SnapshotChoice
import Backfill.Proofs.WindowFetches

/-!
Reads of times that fit into words, in windows whose size does. The clock never runs out on one, nor
is time ever cut into windows of length zero: what a date is added to lies in what is asked for, is
where a window around such a time starts, or is where a snapshot or a block of the peers starts.
-/

namespace Backfill

/-- What is asked for fits into words, and so does the size of the windows it is read in. Of an
index that is not kept the size of the windows does not matter. -/
structure Request.Sane (r : Request) : Prop where
  size : FitsWord r.policy.blockSize
  indexSize : r.policy.indexed = true → FitsWord r.policy.indexBlockSize
  data : r.data.ranges.FitsWords
  index : r.indexRanges.FitsWords

namespace Replay

variable {r : Replay}

/-- Every block that something was gathered for ends on the clock. -/
structure Timely (r : Replay) : Prop where
  sane : r.request.Sane
  ends : ∀ shard id start, r.held? shard id start ≠ none → start.Reaches r.blockSize

theorem timely_ofRequest {request : Request} (sane : request.Sane) : (ofRequest request).Timely :=
  ⟨sane, fun _ _ _ held => absurd rfl held⟩

/-- Only what is gathered matters. -/
theorem Timely.congr {r' : Replay} (h : r.Timely) (request : r'.request = r.request)
    (series : r'.series = r.series) : r'.Timely := by
  refine ⟨request ▸ h.sane, fun shard id start held => ?_⟩
  rw [held?, series] at held
  rw [blockSize, request]
  exact h.ends shard id start held

theorem Timely.gather (h : r.Timely) {b : Bucket} (hb : b.start.Reaches r.blockSize) :
    (r.gather b).Timely := by
  refine ⟨h.sane, fun shard id start held => ?_⟩
  rw [held?_gather] at held
  split at held
  · rename_i here
    exact here.2.2 ▸ hb
  · exact h.ends shard id start held

theorem Timely.foldl_gather (h : r.Timely) {l : List Bucket}
    (hl : ∀ b ∈ l, b.start.Reaches r.blockSize) : (l.foldl Replay.gather r).Timely := by
  induction l generalizing r with
  | nil => exact h
  | cons b l ih =>
    exact ih (h.gather (hl b List.mem_cons_self)) fun c hc => hl c (List.mem_cons_of_mem _ hc)

theorem Timely.restore (h : r.Timely) {info : SnapshotInfo} (start : FitsWord info.start)
    (volume : List SnapshotSeries) : Yields (r.restore info volume) Timely := by
  have ends : info.start.Reaches r.blockSize := Instant.reaches_of_fits start h.sane.size
  rw [Replay.restore, Interval.ofStart_eq ends]
  refine yields_ok ?_
  dsimp only
  split
  · exact h
  · cases legible : SnapshotSeries.legible info.start volume with
    | false =>
      obtain ⟨e, spoilt⟩ := readVolume_error info legible
      rw [spoilt]
      exact h.congr rfl rfl
    | true =>
      rw [readVolume_ok info legible]
      refine (h.foldl_gather fun b hb => ?_).congr rfl rfl
      obtain ⟨w, hw, rfl⟩ := List.mem_map.mp (List.mem_filter.mp hb).1
      obtain ⟨s, _, rfl⟩ := List.mem_map.mp hw
      exact ends

theorem Timely.applyData (h : r.Timely) {e : LogEntry}
    (asked : e.point.time ∈ r.dataRanges.get e.shard) {x : Replay × EntryFate}
    (applied : r.applyData e = .ok x) : x.1.Timely := by
  have fits : FitsWord e.point.time := (h.sane.data e.shard).of_mem asked
  rw [Replay.applyData, blockSize, Instant.windowStart_eq r.request.policy.blockSize_pos h.sane.size
    fits] at applied
  dsimp only [bind, Except.bind] at applied
  split at applied
  · cases applied
    exact h
  · cases applied
    exact h.gather (Instant.reaches_floor r.request.policy.blockSize_pos h.sane.size fits)

theorem Timely.apply (h : r.Timely) (e : LogEntry) : Yields (r.apply e) (·.1.Timely) := by
  -- An entry that cannot be indexed is looked up where its index block ends.
  have onClock (asked : e.point.time ∈ r.indexRanges.get e.shard) : e.OnClock r.indexBlockSize := by
    intro _ start hstart
    have kept : r.request.policy.indexed = true := by
      by_contra unkept
      rw [r.indexRanges_of_unindexed (Bool.eq_false_iff.mpr unkept)] at asked
      exact Coverage.not_mem_empty (e.shard, e.point.time) asked
    have pos := r.request.policy.indexBlockSize_pos kept
    have size := h.sane.indexSize kept
    have fits : FitsWord e.point.time := (h.sane.index e.shard).of_mem asked
    rw [indexBlockSize, Instant.windowStart_eq pos size fits] at hstart
    cases hstart
    exact ⟨_, Interval.ofStart_eq (Instant.reaches_floor pos size fits)⟩
  obtain ⟨x, applied⟩ := r.apply_total onClock
  refine ⟨x, applied, ?_⟩
  obtain ⟨m, same, _, data⟩ := apply_parts applied
  have here : m.Timely := h.congr same.request same.series
  split at data
  · rename_i asked
    refine here.applyData ?_ data
    rw [dataRanges, same.request]
    exact asked
  · rw [data]
    exact here

theorem Timely.finishData (h : r.Timely) (missAll : Bool) : ∃ d, r.finishData missAll = .ok d := by
  have closes : ∃ d, r.buckets.foldlM r.closeBucket ⟨.empty, r.missingData⟩ = .ok d := by
    refine foldlM_total (P := fun _ => True) (fun b hb d _ => ?_) trivial
    rw [closeBucket]
    split
    · exact ⟨_, rfl, trivial⟩
    · rw [Interval.ofStart_eq (h.ends b.shard b.id b.start (by rw [held?_of_mem_buckets hb]; simp))]
      exact ⟨_, rfl, trivial⟩
  obtain ⟨d, closed⟩ := closes
  rw [Replay.finishData, closed]
  exact ⟨_, rfl⟩

theorem Timely.finishIndex (h : r.Timely) (missAll : Bool) :
    ∃ f, r.finishIndex missAll = .ok f := by
  unfold Replay.finishIndex
  cases kept : r.request.policy.indexed with
  | false =>
    simp only [r.indexRanges_of_unindexed kept, Coverage.empty_fulfilled]
    exact ⟨_, rfl⟩
  | true =>
    have pos : 0 < r.indexBlockSize := r.request.policy.indexBlockSize_pos kept
    have marks (missing : Coverage) : ∃ i, (r.indexRanges.fulfilled missing).entries.foldlM
        (markShard r.indexBlockSize) r.index = .ok i := by
      refine foldlM_total (P := fun _ => True) (fun e he i _ => ?_) trivial
      have done : e.2.FitsWords :=
        Coverage.get_of_mem_entries he ▸ Coverage.FitsWords.diff h.sane.index missing e.1
      rw [markShard, shardMarks, TimeSet.slices_eq pos (h.sane.indexSize kept) done]
      exact ⟨_, rfl, trivial⟩
    obtain ⟨i, marked⟩ := marks _
    exact ⟨_, bind_eq_ok.mpr ⟨i, marked, rfl⟩⟩

theorem Timely.finish (h : r.Timely) (missAll : Bool) : ∃ x, r.finish missAll = .ok x := by
  obtain ⟨d, data⟩ := h.finishData missAll
  obtain ⟨f, index⟩ := h.finishIndex missAll
  rw [Replay.finish, data, index]
  exact ⟨_, rfl⟩

end Replay

namespace CommitLog

open Replay (Timely)

variable {files : Files} {requests : List Request} {replays : Replays}

/-- The snapshots of the namespaces that are asked for are of blocks whose starts fit into words. -/
def Files.Sane (files : Files) (requests : List Request) : Prop :=
  ∀ r ∈ requests, ∀ shard infos, files.list r.id shard = .ok infos →
    ∀ info ∈ infos, FitsWord info.start

def AllTimely (replays : Replays) : Prop := ∀ id replay, replays.get? id = some replay → replay.Timely

theorem AllTimely.insert (before : AllTimely replays) {id : NamespaceId} {replay : Replay}
    (here : replay.Timely) : AllTimely (replays.insert id replay) := by
  intro other held h
  rw [SortedMap.get?_insert] at h
  split at h
  · cases h
    exact here
  · exact before other held h

theorem AllTimely.erase (before : AllTimely replays) (id : NamespaceId) :
    AllTimely (replays.erase id) := by
  intro other held h
  rw [SortedMap.get?_erase] at h
  split at h
  · cases h
  · exact before other held h

theorem allTimely_begin (sane : ∀ r ∈ requests, r.Sane) : AllTimely (begin requests) := by
  refine List.foldlRecOn _ _ (fun id replay h => by cases h) fun m before r hr => ?_
  exact before.insert (Replay.timely_ofRequest (sane r (List.mem_filter.mp hr).1))

theorem yields_ofFaulty {α : Type} {x : Except Fault α} {P : α → Prop} (h : Yields x P) :
    Yields (Run.ofFaulty x).outcome P := by
  obtain ⟨a, rfl, ha⟩ := h
  exact yields_ok ha

theorem yields_bind {α β : Type} {x : Run α} {f : α → Run β} {P : α → Prop} {Q : β → Prop}
    (hx : Yields x.outcome P) (hf : ∀ a, P a → Yields (f a).outcome Q) :
    Yields (x >>= f).outcome Q := by
  change Yields (Trail.bind x f).outcome Q
  rw [Trail.outcome_bind]
  exact hx.bind hf

theorem yields_note_bind {α : Type} {e : Event} {x : Run α} {P : α → Prop} (h : Yields x.outcome P) :
    Yields (Trail.note e >>= fun _ => x).outcome P :=
  yields_bind (P := fun _ => True) (yields_ok trivial) fun _ _ => h

theorem yields_foldEach {α β : Type} {f : β → α → Run β} {P : β → Prop} {l : List α}
    (step : ∀ a ∈ l, ∀ b, P b → Yields (f b a).outcome P) {b : β} (hb : P b) :
    Yields (Trail.foldEach f b l).outcome P := by
  rw [Trail.outcome_foldEach]
  exact yields_foldlM step hb

theorem timely_restoreVolume {replay : Replay} (before : replay.Timely) {size : Duration}
    (fits : FitsWord size) (shard : Shard) {e : Instant × SnapshotInfo} (start : FitsWord e.1)
    (same : e.2.start = e.1) : Yields (restoreVolume files size shard replay e).outcome Timely := by
  refine yields_note_bind ?_
  split
  · exact yields_ofFaulty (before.restore (same ▸ start) _)
  · rw [Interval.ofStart_eq (Instant.reaches_of_fits start fits)]
    exact yields_ok (before.congr rfl rfl)

theorem timely_restoreShard (sane : ∀ r ∈ requests, r.Sane) (listed : files.Sane requests)
    {r : Request} (hr : r ∈ requests) {replay : Replay} (before : replay.Timely)
    (e : Shard × TimeSet) : Yields (restoreShard files r replay e).outcome Timely := by
  refine yields_note_bind ?_
  split
  · exact yields_ok (before.congr rfl rfl)
  · rename_i infos listing
    have starts := listed r hr e.1 infos listing
    have dated : SnapshotInfo.Dated r.policy.blockSize infos := fun info hi _ =>
      Instant.reaches_of_fits (starts info hi) (sane r hr).size
    obtain ⟨chosen, selected, _⟩ := SnapshotInfo.select_eq_argmax e.2 dated
    refine yields_bind (P := (· = chosen)) (yields_ofFaulty ⟨chosen, selected, rfl⟩) ?_
    rintro _ rfl
    refine yields_foldEach (fun v hv m here => ?_) before
    have choice := SnapshotInfo.select_chosen selected v.1 v.2 (SortedMap.get?_eq_some_iff.mpr hv)
    exact timely_restoreVolume here (sane r hr).size e.1
      (choice.start ▸ starts v.2 choice.listed) choice.start

theorem timely_restoreRequest (sane : ∀ r ∈ requests, r.Sane) (listed : files.Sane requests)
    {r : Request} (hr : r ∈ requests) (before : AllTimely replays) :
    Yields (restoreRequest files replays r).outcome AllTimely := by
  unfold restoreRequest
  split
  · rename_i replay _ held
    refine yields_bind (P := Timely) ?_ fun restored here => yields_ok (before.insert here)
    exact yields_foldEach (fun e _ m here => timely_restoreShard sane listed hr here e)
      (before r.id replay held)
  · exact yields_ok before

theorem timely_applyEntry (before : AllTimely replays) (e : LogEntry) :
    Yields (applyEntry replays e).outcome AllTimely := by
  unfold applyEntry
  split
  · exact yields_note_bind (yields_ok before)
  · rename_i replay held
    refine yields_bind (yields_ofFaulty ((before _ replay held).apply e)) fun x here => ?_
    exact yields_note_bind (yields_ok (before.insert here))

theorem timely_finishRequest (missAll : Bool) {s : Replays × Recoveries} (before : AllTimely s.1)
    (r : Request) : Yields (finishRequest missAll s r) (AllTimely ·.1) := by
  unfold finishRequest
  split
  · exact yields_ok before
  · rename_i replay held
    obtain ⟨x, finished⟩ := (before r.id replay held).finish missAll
    rw [finished]
    exact yields_ok (before.erase r.id)

theorem readAll_ends (o : Options) (idle : Recoveries) (sane : ∀ r ∈ requests, r.Sane)
    (listed : o.files.Sane requests) (before : AllTimely replays) :
    Yields (readAll o idle replays requests).outcome fun _ => True := by
  refine yields_bind (P := AllTimely) (yields_foldEach
    (fun r hr m before => timely_restoreRequest sane listed hr before) before) fun m before => ?_
  refine yields_note_bind ?_
  split
  · exact yields_ok trivial
  · refine yields_bind (P := AllTimely) (yields_foldEach
      (fun e _ m before => timely_applyEntry before e) before) fun m before => ?_
    refine yields_bind (P := fun s => AllTimely s.1) (yields_ofFaulty (yields_foldlM
      (fun r _ s before => timely_finishRequest _ before r) before)) fun s _ => yields_ok trivial

theorem read_ends (o : Options) (sane : ∀ r ∈ requests, r.Sane) (listed : o.files.Sane requests) :
    ∃ found, (read o requests).outcome = .ok found := by
  have ends : Yields (read o requests).outcome fun _ => True := by
    unfold read
    dsimp only
    split
    · exact yields_ok trivial
    · exact yields_bind (readAll_ends o _ sane listed (allTimely_begin sane)) fun _ _ =>
        yields_bind (P := fun _ => True) (yields_ok trivial) fun _ _ => yields_ok trivial
  obtain ⟨found, done, _⟩ := ends
  exact ⟨found, done⟩

end CommitLog

namespace Peers

variable {t : Tuning} {c : Cluster} {nth : Nat} {r : Request} {session : Session}

/-- No call to the peers or to a disk breaks off, and the peers tell of times that fit into
words. -/
structure Cluster.Calm (c : Cluster) : Prop where
  blocks : ∀ nth session, c.openSession nth = .ok session → session.CalmBlocks
  metadata : ∀ nth session, c.openSession nth = .ok session → session.CalmMetadata
  disk : ∀ nth disk, c.disk? nth = some disk → disk.Calm

/-- No fault ends a worker of the request, nor the writing of what a worker hands on. Of a kept
index alone are there workers. -/
structure Unfaulted (t : Tuning) (c : Cluster) (nth : Nat) (r : Request) : Prop where
  data : ∀ session target, c.openSession nth = .ok session →
    (openTarget t c nth r).outcome = .ok target →
      ∀ w ∈ dataWork t session (delivery r target) r, w.work.outcome = .ok ()
  flushes : ∀ session disk into, c.openSession nth = .ok session →
    (openTarget t c nth r).outcome = .ok (some (disk, into)) →
      ∀ a ∈ (dataWork t session .persist r).flatMap ShardWork.actions,
        ∀ f, QueueRun.flushOf a = some f → ∀ n x, (f.write disk into n).outcome ≠ .error (.fault x)
  index : r.policy.indexed = true → ∀ session, c.openSession nth = .ok session →
    ∀ w ∈ indexWork t session r, w.work.outcome = .ok ()

theorem unfaulted (sane : r.Sane) (calm : c.Calm) (loads : ∀ a, r.accumulator = some a → a.Calm)
    (nth : Nat) : Unfaulted t c nth r := by
  have fits : Fits r := ⟨sane.size, sane.data⟩
  refine ⟨fun session target opened _ w hw => ?_, fun session disk into opened ht a ha f hf n x => ?_,
    fun indexed session opened w hw => ?_⟩
  · rw [dataWork_eq] at hw
    obtain ⟨e, _, rfl⟩ := List.mem_map.mp hw
    exact congrArg Trail.outcome
      (workFor_calm (calm.blocks nth session opened) (delivery_calm target loads) fits e.1)
  · rcases openTarget_ok ht with ⟨_, none⟩ | ⟨_, disk', hd, some⟩
    · cases none
    cases some
    obtain ⟨shard, action⟩ := a
    cases action with
    | flush part d =>
      cases hf
      have window := oneWindow_handed fits ha part d rfl
      have ends : Flush.Ends (Flush.write disk (flushTarget r) n ⟨shard, d, part⟩) _ :=
        Flush.ends_calm (calm.disk nth disk hd) n window
      rcases ends with ⟨_, ends⟩ | ⟨_, e, ends⟩
      · rw [ends]
        nofun
      · rw [ends]
        nofun
    | _ => cases hf
  · rw [indexWork_eq_indexFor] at hw
    obtain ⟨e, _, rfl⟩ := List.mem_map.mp hw
    have words : r.index.ranges.FitsWords := by
      have asked := sane.index
      rwa [Request.indexRanges, if_pos indexed] at asked
    exact indexFor_calm (calm.metadata nth session opened)
      ⟨indexed, sane.size, sane.indexSize indexed⟩ words e.1

/-- If anything, an error ends it. -/
def Faultless {α : Type} (x : Run α) : Prop := ∀ f, x.outcome ≠ .error (.fault f)

theorem faultless_ofExcept {α : Type} (x : Except Error α) : Faultless (Run.ofExcept x) := by
  cases x <;> exact fun _ => nofun

theorem Faultless.bind {α β : Type} {x : Run α} {f : α → Run β} (hx : Faultless x)
    (hf : ∀ a, Faultless (f a)) : Faultless (x >>= f) := by
  intro fault h
  change (Trail.bind x f).outcome = _ at h
  rw [Trail.outcome_bind] at h
  rcases bind_eq_error.mp h with h | ⟨a, _, h⟩
  · exact hx fault h
  · exact hf a fault h

theorem faultless_pure {α : Type} (a : α) : Faultless (pure a) := fun _ => nofun

theorem faultless_note (e : Event) : Faultless (Trail.note e) := fun _ => nofun

theorem faultless_foldEach {α β : Type} {f : β → α → Run β} (h : ∀ b a, Faultless (f b a)) (b : β)
    (l : List α) : Faultless (Trail.foldEach f b l) := by
  induction l generalizing b with
  | nil => exact faultless_pure b
  | cons a l ih => exact (h b a).bind fun c => ih c

theorem faultless_openTarget : Faultless (openTarget t c nth r) := by
  unfold openTarget
  split
  · split
    · exact (faultless_note _).bind fun _ => (faultless_ofExcept _).bind fun _ =>
        (faultless_note _).bind fun _ => (faultless_ofExcept _).bind fun _ => faultless_pure _
    · exact fun _ => nofun
  · exact faultless_pure _

theorem faultless_readData : Faultless (readData t c nth r) := by
  unfold readData
  split
  · exact faultless_pure _
  · exact (faultless_note _).bind fun _ => (faultless_ofExcept _).bind fun _ =>
      faultless_openTarget.bind fun _ => Faultless.bind (fun _ => nofun) fun _ => faultless_pure _

theorem faultless_readIndex : Faultless (readIndex t c nth r) := by
  unfold readIndex
  split
  · exact faultless_pure _
  · exact (faultless_note _).bind fun _ => (faultless_ofExcept _).bind fun _ =>
      Faultless.bind (fun _ => nofun) fun _ => faultless_pure _

/-- A worker that breaks off does not take the read down. -/
theorem faultless_read (t : Tuning) (c : Cluster) (requests : List Request) :
    Faultless (read t c requests) := by
  have data := faultless_foldEach (f := readDataOf t c) fun p r =>
    faultless_readData.bind fun _ => faultless_pure _
  have index := faultless_foldEach (f := readIndexOf t c) fun p r =>
    faultless_readIndex.bind fun _ => faultless_pure _
  exact (data _ _).bind fun _ => (index _ _).bind fun _ => faultless_pure _

end Peers

/-- On sane times neither source comes upon a date beyond the clock, nor upon windows of length
zero: a read of the commit log comes to its end whatever is in the log, and of a read from peers so
do the workers and whatever they have written. -/
theorem reads_on_clock {requests : List Request} (sane : ∀ r ∈ requests, r.Sane) :
    (∀ o : CommitLog.Options, o.files.Sane requests →
      ∃ found, (CommitLog.read o requests).outcome = .ok found) ∧
    ∀ (t : Peers.Tuning) (c : Peers.Cluster), c.Calm →
      (∀ r ∈ requests, ∀ a, r.accumulator = some a → a.Calm) →
        Peers.Faultless (Peers.read t c requests) ∧
          ∀ r ∈ requests, ∀ nth, Peers.Unfaulted t c nth r :=
  ⟨fun o listed => CommitLog.read_ends o sane listed, fun t c calm loads =>
    ⟨Peers.faultless_read t c requests, fun r hr nth =>
      Peers.unfaulted (sane r hr) calm (loads r hr) nth⟩⟩

/-- Times at both ends of a word are asked for, in windows of an index that is not kept and has no
length. The log has a write at the end of the clock. -/
theorem reads_on_clock_ends :
    let start : Instant := -9223372036854775808
    let stop : Instant := 9223372036854775807
    let at_ (t : Instant) : Point := ⟨t, ⟨0, .second, none⟩⟩
    let files : CommitLog.Files := ⟨.ok [.ok ⟨[7], 0, [1], .empty, at_ start⟩,
        .ok ⟨[7], 0, [1], .empty, at_ Instant.latest⟩],
      fun id shard => .ok [⟨id, shard, start, 1, 4, true⟩], fun _ => .error (.persist "gone")⟩
    let policy : Policy := ⟨{ blockSize := 10, indexBlockSize := 0 }, by decide, by decide⟩
    let options : RunOptions := ⟨⟨false, .snapshot⟩, .ofOrigin [] 0⟩
    let ranges := (Coverage.empty.add 0 ⟨start, start + 5⟩).add 0 ⟨stop - 5, stop⟩
    let request : Request := ⟨[7], policy, [0], none, ⟨ranges, options⟩, ⟨ranges, options⟩⟩
    let tuning : Peers.Tuning := ⟨1, 1, 1, 1, .majority, .lru⟩
    let cluster : Peers.Cluster := ⟨fun _ => .ok Peers.repeating, none, none⟩
    (∀ r ∈ [request], r.Sane) ∧ files.Sane [request] ∧ cluster.Calm ∧
      (∃ found, (CommitLog.read ⟨files, false⟩ [request]).outcome = .ok found) ∧
      Peers.Unfaulted tuning cluster 0 request := by
  intro start stop at_ files policy options ranges request tuning cluster
  have words : ranges.FitsWords := Coverage.fitsWords_of_entries (by decide)
  have sane : ∀ r ∈ [request], r.Sane := by
    intro r hr
    cases List.mem_singleton.mp hr
    exact ⟨by decide, nofun, words, Coverage.fitsWords_of_entries (by decide)⟩
  have listed : files.Sane [request] := by
    intro r hr shard infos listing info hi
    cases listing
    cases List.mem_singleton.mp hi
    exact (by decide : FitsWord (-9223372036854775808))
  have calm : cluster.Calm := by
    refine ⟨fun nth session opened => ?_, fun nth session opened => ?_, fun _ _ => nofun⟩
    · cases opened
      exact fun _ _ => nofun
    · cases opened
      exact Peers.repeating_calm
  obtain ⟨ends, unfaulted⟩ := reads_on_clock sane
  obtain ⟨_, phases⟩ := unfaulted tuning cluster calm fun r hr a given => by
    cases List.mem_singleton.mp hr
    cases given
  exact ⟨sane, listed, calm, ends ⟨files, false⟩ listed, phases request List.mem_cons_self 0⟩

end Backfill

import Backfill.Proofs.ChainedData
import Backfill.Proofs.Findable

/-!
Where the points of a read of the commit log come to lie. What is returned is asked for. A write of
the log lies in the block of its window; a point of a snapshot lies in the block that its volume is
for, whatever its own window.
-/

namespace Backfill.CommitLog

variable {files : Files} {requests : List Request} {r : Request} {replay replay' : Replay}

/-- A run for the namespace restores snapshots, and a volume for the block at `start` has a point of
the series at `t`. -/
def InVolume (files : Files) (requests : List Request) (namespaceId : NamespaceId) (shard : Shard)
    (id : SeriesId) (start t : Instant) : Prop :=
  (∃ s ∈ requests, s.id = namespaceId ∧ s.data.options.persistence.kind = .snapshot) ∧
    ∃ asked infos, files.list namespaceId asked = .ok infos ∧ ∃ info ∈ infos,
      info.shard = shard ∧ info.start = start ∧ ∃ volume, files.read info = .ok volume ∧
        ∃ s ∈ volume, s.id = id ∧ s.block.HasPoint start t

/-- A volume brings the point to a block whose window it is not in. -/
def Strays (files : Files) (requests : List Request) (r : Request) (shard : Shard) (id : SeriesId)
    (start t : Instant) : Prop :=
  InVolume files requests r.id shard id start t ∧
    Instant.windowStart t r.policy.blockSize ≠ .ok start

/-- A point of a series may lie in the block at `start`. -/
structure Lies (files : Files) (requests : List Request) (r : Request) (shard : Shard)
    (id : SeriesId) (start t : Instant) : Prop where
  asked : (shard, t) ∈ r.data.ranges
  own : Instant.windowStart t r.policy.blockSize = .ok start ∨
    Strays files requests r shard id start t

theorem Lies.of_inVolume {shard : Shard} {id : SeriesId} {start t : Instant}
    (asked : (shard, t) ∈ r.data.ranges) (brought : InVolume files requests r.id shard id start t) :
    Lies files requests r shard id start t := by
  refine ⟨asked, ?_⟩
  by_cases own : Instant.windowStart t r.policy.blockSize = .ok start
  · exact .inl own
  · exact .inr ⟨brought, own⟩

/-- Of two blocks with a point of the series at one instant, one has it from outside its window. -/
theorem Lies.once {shard : Shard} {id : SeriesId} {start start' t : Instant}
    (here : Lies files requests r shard id start t)
    (there : Lies files requests r shard id start' t) :
    start = start' ∨ Strays files requests r shard id start t ∨
      Strays files requests r shard id start' t := by
  rcases here.own with own | strays
  · rcases there.own with own' | strays
    · rw [own] at own'
      exact .inl (Except.ok.inj own')
    · exact .inr (.inr strays)
  · exact .inr (.inl strays)

/-- A replay for a namespace, with all its points where they may lie. -/
structure Placed (files : Files) (requests : List Request) (namespaceId : NamespaceId)
    (replay : Replay) : Prop where
  listed : replay.request ∈ requests
  own : replay.request.id = namespaceId
  filled : replay.Filled
  points : ∀ shard id start, ∀ p ∈ replay.points shard id start,
    Lies files requests replay.request shard id start p.time

variable {namespaceId : NamespaceId}

theorem placed_ofRequest (hr : r ∈ requests) : Placed files requests r.id (.ofRequest r) :=
  ⟨hr, rfl, fun _ _ _ => nofun, fun _ _ _ _ => nofun⟩

theorem Placed.restore {asked : Shard} {infos : List SnapshotInfo} {info : SnapshotInfo}
    {volume : List SnapshotSeries} (before : Placed files requests namespaceId replay)
    (snapshot : ∃ s ∈ requests, s.id = namespaceId ∧ s.data.options.persistence.kind = .snapshot)
    (listed : files.list namespaceId asked = .ok infos) (hi : info ∈ infos)
    (read : files.read info = .ok volume) (h : replay.restore info volume = .ok replay') :
    Placed files requests namespaceId replay' := by
  obtain ⟨filled, request, points⟩ := mem_points_restore before.filled h
  refine ⟨request ▸ before.listed, request ▸ before.own, filled, fun shard id start p hp => ?_⟩
  rw [request]
  rcases points shard id start p hp with hp | ⟨hshard, hstart, wanted, has⟩
  · exact before.points shard id start p hp
  · refine .of_inVolume (Coverage.mem_def.mpr wanted) ⟨before.own.symm ▸ snapshot, asked, infos,
      before.own.symm ▸ listed, info, hi, hshard, hstart, volume, read, has⟩

theorem Placed.apply {e : LogEntry} {fate : EntryFate}
    (before : Placed files requests namespaceId replay)
    (h : replay.apply e = .ok (replay', fate)) : Placed files requests namespaceId replay' := by
  obtain ⟨filled, same, points⟩ := Replay.apply_ok before.filled h
  refine ⟨same.request ▸ before.listed, same.request ▸ before.own, filled,
    fun shard id start p hp => ?_⟩
  rw [same.request]
  rw [points] at hp
  rcases List.mem_append.mp hp with hp | hp
  · exact before.points shard id start p hp
  · unfold Replay.brings at hp
    split at hp
    · rename_i here
      cases List.mem_singleton.mp hp
      obtain ⟨rfl, rfl, counts⟩ := here
      simp only [LogEntry.counts, Bool.and_eq_true, decide_eq_true_eq] at counts
      obtain ⟨⟨asked, own⟩, _⟩ := counts
      refine ⟨Coverage.mem_def.mpr asked, .inl ?_⟩
      cases hw : Instant.windowStart e.point.time replay.blockSize with
      | error x =>
        rw [hw] at own
        cases own
      | ok w =>
        rw [hw] at own
        cases own
        exact hw
    · cases hp

/-- Every replay has its points where they may lie. -/
def AllPlaced (files : Files) (requests : List Request) (replays : Replays) : Prop :=
  ∀ id replay, replays.get? id = some replay → Placed files requests id replay

variable {replays replays' : Replays}

theorem AllPlaced.insert (before : AllPlaced files requests replays)
    (here : Placed files requests namespaceId replay) :
    AllPlaced files requests (replays.insert namespaceId replay) := by
  intro id other hother
  rw [SortedMap.get?_insert] at hother
  split at hother
  · rename_i same
    cases hother
    exact same ▸ here
  · exact before id other hother

theorem allPlaced_begin (files : Files) (requests : List Request) :
    AllPlaced files requests (begin requests) := by
  refine List.foldlRecOn _ _ (fun id replay h => by cases h) fun m before r hr => ?_
  exact before.insert (placed_ofRequest (List.mem_filter.mp hr).1)

theorem AllPlaced.restoreRequest (before : AllPlaced files requests replays) (hr : r ∈ requests)
    (h : (restoreRequest files replays r).outcome = .ok replays') :
    AllPlaced files requests replays' := by
  unfold CommitLog.restoreRequest at h
  split at h
  · rename_i replay snapshot held
    obtain ⟨restored, restoring, h⟩ := Trail.outcome_bind_eq_ok.mp h
    cases h
    rw [Trail.outcome_foldEach] at restoring
    refine before.insert (foldlM_keeps (fun e _ m m' here step => ?_) (before _ _ held) restoring)
    exact restoreShard_keeps (fun m _ here => ⟨here.listed, here.own, here.filled, here.points⟩)
      (fun infos info volume m m' listed hi read here step =>
        here.restore ⟨r, hr, rfl, snapshot⟩ listed hi read step) step here
  · cases h
    exact before

theorem AllPlaced.applyEntry {e : LogEntry} (before : AllPlaced files requests replays)
    (h : (applyEntry replays e).outcome = .ok replays') : AllPlaced files requests replays' := by
  unfold CommitLog.applyEntry at h
  split at h
  · cases h
    exact before
  · rename_i replay held
    obtain ⟨⟨after, fate⟩, applied, h⟩ := Trail.outcome_bind_eq_ok.mp h
    cases h
    exact before.insert ((before _ _ held).apply (Run.ofFaulty_eq_ok.mp applied))

/-- What was recovered for a namespace has its points where they may lie. -/
def Lain (files : Files) (requests : List Request) (namespaceId : NamespaceId)
    (f : Recovery) : Prop :=
  ∃ r ∈ requests, r.id = namespaceId ∧ ∀ shard id start b t,
    f.data.block? shard id start = some b → b.HasPoint start t →
      Lies files requests r shard id start t

/-- No block was recovered. -/
def Bare (f : Recovery) : Prop := ∀ shard id start, f.data.block? shard id start = none

theorem Bare.merge {f g : Recovery} (hf : Bare f) (hg : Bare g) : Bare (f.merge g) := by
  intro shard id start
  rw [Recovery.merge, RecoveredData.block?_merge, hf, hg]
  rfl

theorem Bare.lain {f : Recovery} (bare : Bare f) (hr : r ∈ requests) :
    Lain files requests r.id f := by
  refine ⟨r, hr, rfl, fun shard id start b t hb => ?_⟩
  rw [bare] at hb
  cases hb

/-- What has no block takes on those of the other. -/
theorem Lain.after {f g : Recovery} (hf : Bare f) (hg : Lain files requests namespaceId g) :
    Lain files requests namespaceId (f.merge g) := by
  obtain ⟨r, hr, own, lies⟩ := hg
  refine ⟨r, hr, own, fun shard id start b t hb has => lies shard id start b t ?_ has⟩
  rw [Recovery.merge, RecoveredData.block?_merge, hf, Option.or_none] at hb
  exact hb

/-- Everything found so far lies where it may, and nothing was found for what is still replayed. -/
structure Found (files : Files) (requests : List Request) (replays : Replays)
    (found : Recoveries) : Prop where
  placed : AllPlaced files requests replays
  lain : ∀ id f, found.get? id = some f → Lain files requests id f
  bare : ∀ id f, found.get? id = some f → replays.get? id ≠ none → Bare f

/-- Recoveries without blocks, for namespaces that are asked for. -/
def AllBare (requests : List Request) (found : Recoveries) : Prop :=
  ∀ id f, found.get? id = some f → Bare f ∧ ∃ r ∈ requests, r.id = id

theorem AllBare.insert {found : Recoveries} {f : Recovery} (before : AllBare requests found)
    (hr : r ∈ requests) (bare : Bare f) : AllBare requests (found.insert r.id f) := by
  intro id g hg
  rw [Recoveries.get?_insert] at hg
  split at hg
  · rename_i same
    cases hg
    refine ⟨?_, r, hr, same.symm⟩
    cases held : found.get? r.id with
    | none => exact bare
    | some old => exact (before r.id old held).1.merge bare
  · exact before id g hg

theorem AllBare.lain {found : Recoveries} {f : Recovery} (bare : AllBare requests found)
    (hf : found.get? namespaceId = some f) : Lain files requests namespaceId f := by
  obtain ⟨bare, r, hr, rfl⟩ := bare namespaceId f hf
  exact bare.lain hr

theorem allBare_idle (requests : List Request) : AllBare requests
    ((requests.filter isIdle).foldl (fun m r => m.insert r.id r.recovery) .empty) := by
  refine List.foldlRecOn _ _ (fun id f h => by cases h) fun m before r hr => ?_
  exact before.insert (List.mem_filter.mp hr).1 fun _ _ _ => rfl

theorem Found.finishRequest {missAll : Bool} {found found' : Recoveries}
    (before : Found files requests replays found)
    (h : finishRequest missAll (replays, found) r = .ok (replays', found')) :
    Found files requests replays' found' := by
  rcases finishRequest_ok h with ⟨_, same⟩ | ⟨replay, data, index, held, finished, same⟩
  · cases same
    exact before
  · cases same
    obtain ⟨hdata, _⟩ := Replay.finish_eq_ok.mp finished
    have here := before.placed r.id replay held
    have lain : Lain files requests r.id { r.recovery with data, index } := by
      refine ⟨replay.request, here.listed, here.own, fun shard id start b t hb has => ?_⟩
      obtain ⟨p, hp, rfl⟩ := Replay.finishData_hasPoint hdata hb has
      exact here.points shard id start p hp
    refine ⟨fun id other hother => ?_, fun id f hf => ?_, fun id f hf live => ?_⟩
    · rw [SortedMap.get?_erase] at hother
      split at hother
      · cases hother
      · exact before.placed id other hother
    · rw [Recoveries.get?_insert] at hf
      split at hf
      · rename_i same
        cases hf
        subst same
        cases old : found.get? r.id with
        | none => exact lain
        | some f => exact lain.after (before.bare r.id f old (by simp [held]))
      · exact before.lain id f hf
    · rw [SortedMap.get?_erase] at live
      split at live
      · exact absurd rfl live
      · rename_i other
        rw [Recoveries.get?_insert, if_neg other] at hf
        exact before.bare id f hf live

theorem read_lain {o : Options} {found : Recoveries} (h : (read o requests).outcome = .ok found)
    {f : Recovery} (hf : found.get? namespaceId = some f) :
    Lain o.files requests namespaceId f := by
  unfold read at h
  dsimp only at h
  split at h
  · cases h
    exact (allBare_idle requests).lain hf
  · obtain ⟨found', h, last⟩ := Trail.outcome_bind_eq_ok.mp h
    obtain ⟨_, _, last⟩ := Trail.outcome_bind_eq_ok.mp last
    cases last
    unfold readAll at h
    obtain ⟨restored, hrestored, h⟩ := Trail.outcome_bind_eq_ok.mp h
    obtain ⟨_, _, h⟩ := Trail.outcome_bind_eq_ok.mp h
    split at h
    · cases h
      have unread : AllBare requests _ := List.foldlRecOn
        (requests.filter (restored.contains ·.id)) (fun m r => m.insert r.id (unread r))
        (allBare_idle requests) fun m before r hr =>
          before.insert (List.mem_filter.mp hr).1 fun _ _ _ => rfl
      exact unread.lain hf
    · obtain ⟨replayed, hreplayed, h⟩ := Trail.outcome_bind_eq_ok.mp h
      obtain ⟨⟨_, _⟩, hfinished, h⟩ := Trail.outcome_bind_eq_ok.mp h
      cases h
      rw [Trail.outcome_foldEach] at hrestored hreplayed
      have placed : AllPlaced o.files requests replayed :=
        foldlM_keeps (fun e _ m m' before step => before.applyEntry step)
          (foldlM_keeps (fun r hr m m' before step => before.restoreRequest hr step)
            (allPlaced_begin o.files requests) hrestored) hreplayed
      have idle := allBare_idle requests
      have last : Found o.files requests _ found :=
        foldlM_keeps (P := fun s => Found o.files requests s.1 s.2)
          (fun r _ s s' before step => before.finishRequest step)
          ⟨placed, fun id f hf => idle.lain hf, fun id f hf _ => (idle id f hf).1⟩
          (Run.ofFaulty_eq_ok.mp hfinished)
      exact last.lain namespaceId f hf

/-- Every point that is returned is asked for and lies in the block of its window, and so in one
block only, save for points that a snapshot volume has outside the window of its block. -/
theorem read_places {o : Options} {requests : List Request}
    (onClock : (read o requests).outcome ≠ .error (.fault .dateOverflow)) :
    ∃ found, (read o requests).outcome = .ok found ∧
      ∀ namespaceId f, found.get? namespaceId = some f → ∃ r ∈ requests, r.id = namespaceId ∧
        (∀ shard id start b t, f.data.block? shard id start = some b → b.HasPoint start t →
          (shard, t) ∈ r.data.ranges ∧
            (Instant.windowStart t r.policy.blockSize = .ok start ∨
              Strays o.files requests r shard id start t)) ∧
        ∀ shard id start start' b b' t, f.data.block? shard id start = some b →
          b.HasPoint start t → f.data.block? shard id start' = some b' → b'.HasPoint start' t →
            start = start' ∨ Strays o.files requests r shard id start t ∨
              Strays o.files requests r shard id start' t := by
  cases h : (read o requests).outcome with
  | error e =>
    rw [runsOut_read o requests e h] at h
    exact absurd h onClock
  | ok found =>
    refine ⟨found, rfl, fun namespaceId f hf => ?_⟩
    obtain ⟨r, hr, own, lies⟩ := read_lain h hf
    refine ⟨r, hr, own, fun shard id start b t hb has => ?_,
      fun shard id start start' b b' t hb has hb' has' => ?_⟩
    · have here := lies shard id start b t hb has
      exact ⟨here.asked, here.own⟩
    · exact (lies shard id start b t hb has).once (lies shard id start' b' t hb' has')

/-- A write of the log at 12, beside a snapshot of the block before. -/
theorem read_places_logged :
    let at_ (t : Instant) : Point := ⟨t, ⟨0, .second, none⟩⟩
    let block := (Block.encode [at_ 2]).toOption.getD ⟨[], 0⟩
    let files : Files := ⟨.ok [.ok ⟨[7], 0, [1], .empty, at_ 12⟩],
      fun id shard => .ok [⟨id, shard, 0, 1, 4, true⟩], fun _ => .ok [⟨[1], .empty, block⟩]⟩
    let policy : Policy := ⟨{ blockSize := 10 }, by decide, by decide⟩
    let options : RunOptions := ⟨⟨false, .snapshot⟩, .ofOrigin [] 0⟩
    let request : Request :=
      ⟨[7], policy, [0], none, ⟨.ofShards [0] ⟨0, 20⟩, options⟩, ⟨.empty, options⟩⟩
    ∃ found, (read ⟨files, false⟩ [request]).outcome = .ok found ∧
      ∃ f, found.get? [7] = some f ∧ ∃ b, f.data.block? 0 [1] 10 = some b ∧ b.HasPoint 10 12 ∧
        (0, 12) ∈ request.data.ranges ∧ Instant.windowStart 12 10 = .ok 10 := by
  intro at_ block files policy options request
  have data : (read ⟨files, false⟩ [request]).outcome.toOption.bind (fun found =>
      (found.get? [7]).bind (·.data.block? 0 [1] 10)) =
        some ((Block.encode [at_ 12]).toOption.getD ⟨[], 0⟩) := by decide +kernel
  have has : ((Block.encode [at_ 12]).toOption.getD ⟨[], 0⟩).HasPoint 10 12 := by decide +kernel
  have onClock : (read ⟨files, false⟩ [request]).outcome ≠ .error (.fault .dateOverflow) := by
    intro overflow
    rw [overflow] at data
    cases data
  obtain ⟨found, ok, places⟩ := read_places onClock
  rw [ok, Except.toOption, Option.bind_some] at data
  obtain ⟨f, hf, hb⟩ := Option.bind_eq_some_iff.mp data
  obtain ⟨r, hr, _, lies, _⟩ := places [7] f hf
  cases List.mem_singleton.mp hr
  obtain ⟨asked, own | strays⟩ := lies 0 [1] 10 _ 12 hb has
  · exact ⟨found, ok, f, hf, _, hb, has, asked, own⟩
  · exact absurd (by decide) strays.2

/-- The volume of the block at 0 has a point at 12, which the log has as well. Both blocks are
returned with it. -/
theorem read_misplaces :
    let at_ (t : Instant) : Point := ⟨t, ⟨0, .second, none⟩⟩
    let block := (Block.encode [at_ 12]).toOption.getD ⟨[], 0⟩
    let files : Files := ⟨.ok [.ok ⟨[7], 0, [1], .empty, at_ 12⟩],
      fun id shard => .ok [⟨id, shard, 0, 1, 4, true⟩], fun _ => .ok [⟨[1], .empty, block⟩]⟩
    let policy : Policy := ⟨{ blockSize := 10 }, by decide, by decide⟩
    let options : RunOptions := ⟨⟨false, .snapshot⟩, .ofOrigin [] 0⟩
    let request : Request :=
      ⟨[7], policy, [0], none, ⟨.ofShards [0] ⟨0, 20⟩, options⟩, ⟨.empty, options⟩⟩
    ∃ found, (read ⟨files, false⟩ [request]).outcome = .ok found ∧
      ∃ f, found.get? [7] = some f ∧ f.data.block? 0 [1] 0 = some block ∧
        f.data.block? 0 [1] 10 = some block ∧ block.HasPoint 0 12 ∧ block.HasPoint 10 12 ∧
          Instant.windowStart 12 10 = .ok 10 := by
  intro at_ block files policy options request
  have twice : (read ⟨files, false⟩ [request]).outcome.toOption.bind (fun found =>
      (found.get? [7]).map fun f => (f.data.block? 0 [1] 0, f.data.block? 0 [1] 10)) =
        some (some block, some block) := by decide +kernel
  cases ok : (read ⟨files, false⟩ [request]).outcome with
  | error e =>
    rw [ok] at twice
    cases twice
  | ok found =>
    rw [ok] at twice
    obtain ⟨f, hf, same⟩ := Option.map_eq_some_iff.mp twice
    obtain ⟨first, second⟩ := Prod.mk.inj same
    exact ⟨found, rfl, f, hf, first, second, by decide +kernel, by decide +kernel, by decide⟩

end Backfill.CommitLog

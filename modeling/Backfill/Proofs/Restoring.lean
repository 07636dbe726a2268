import Backfill.CommitLog.Source
import Backfill.Proofs.Coverage
import Backfill.Proofs.Gathering

/-!
What every block starts from once the snapshots of a request are restored.
-/

namespace Backfill

namespace SnapshotInfo

variable {set : TimeSet} {size : Duration} {infos : List SnapshotInfo}
  {chosen : SortedMap Instant SnapshotInfo}

/-- What is chosen for a block was listed, is of that block, and its window meets the request. -/
structure Chosen (set : TimeSet) (infos : List SnapshotInfo) (start : Instant)
    (info : SnapshotInfo) : Prop where
  listed : info ∈ infos
  start : info.start = start
  meets : set.intervals ≠ []

theorem consider_keeps {held : SortedMap Instant SnapshotInfo} {info : SnapshotInfo}
    (listed : info ∈ infos) (hold : ∀ start i, held.get? start = some i → Chosen set infos start i)
    (h : consider set size held info = .ok chosen) :
    ∀ start i, chosen.get? start = some i → Chosen set infos start i := by
  unfold consider at h
  split at h
  · obtain ⟨window, _, rfl⟩ := map_eq_ok.mp h
    split
    · rename_i meets
      have inhabited : set.intervals ≠ [] := by
        intro none
        simp [TimeSet.overlaps, none] at meets
      intro start i hi
      rw [SortedMap.get?_alter] at hi
      split at hi
      · rename_i here
        subst here
        split at hi
        · cases hi
          exact ⟨listed, rfl, inhabited⟩
        · rename_i old hold'
          cases hi
          split
          · exact ⟨listed, rfl, inhabited⟩
          · exact hold _ _ hold'
      · exact hold start i hi
    · exact hold
  · cases h
    exact hold

theorem select_chosen (h : select set size infos = .ok chosen) :
    ∀ start info, chosen.get? start = some info → Chosen set infos start info :=
  foldlM_keeps (P := fun held => ∀ start i, held.get? start = some i → Chosen set infos start i)
    (fun _ hi _ _ hold step => consider_keeps hi hold step) (fun _ _ h => by cases h) h

end SnapshotInfo

theorem Run.ofFaulty_eq_ok {α : Type} {x : Except Fault α} {a : α} :
    (Run.ofFaulty x).outcome = .ok a ↔ x = .ok a := by
  constructor
  · intro h
    cases x with
    | ok b =>
      cases h
      rfl
    | error e => cases h
  · intro h
    rw [h]
    rfl

namespace CommitLog

/-- The series of a volume, when all of them can be read. -/
def readWhole (files : Files) (info : SnapshotInfo) : Option (List SnapshotSeries) :=
  (files.read info).toOption.filter (SnapshotSeries.legible info.start)

/-- The volume that a block is restored from, and what is in it. -/
def restored? (files : Files) (r : Request) (shard : Shard) (start : Instant) :
    Option (SnapshotInfo × List SnapshotSeries) :=
  if r.data.options.persistence.kind = .snapshot then do
    let infos ← (files.list r.id shard).toOption
    let chosen ← (SnapshotInfo.select (r.data.ranges.get shard) r.policy.blockSize infos).toOption
    let info ← chosen.get? start
    (readWhole files info).map (info, ·)
  else none

variable {files : Files} {r : Request} {replay replay' : Replay}

/-- One volume is restored, or its block is missing. -/
theorem restoreVolume_ok {e : Instant × SnapshotInfo} {shard : Shard} {size : Duration}
    (asked : (replay.dataRanges.get shard).isEmpty = false) (filled : replay.Filled)
    (hs : e.2.shard = shard) (ht : e.2.start = e.1)
    (h : (restoreVolume files size shard replay e).outcome = .ok replay') :
    replay'.Filled ∧ replay'.request = replay.request ∧
      (replay'.seed shard e.1 = (readWhole files e.2).elim (replay.seed shard e.1)
        ((replay.seed shard e.1).restore (replay.dataRanges.get shard) e.2)) ∧
      ∀ other start, shard ≠ other ∨ e.1 ≠ start →
        replay'.seed other start = replay.seed other start := by
  obtain ⟨_, _, h⟩ := Trail.outcome_bind_eq_ok.mp h
  cases hr : files.read e.2 with
  | error x =>
    rw [hr] at h
    obtain ⟨block, _, rfl⟩ := map_eq_ok.mp (Run.ofFaulty_eq_ok.mp h)
    refine ⟨filled, rfl, ?_, fun _ _ _ => rfl⟩
    rw [readWhole, hr]
    rfl
  | ok volume =>
    rw [hr] at h
    subst hs
    obtain ⟨filled', request, seed⟩ := Replay.restore_ok asked filled (Run.ofFaulty_eq_ok.mp h)
    refine ⟨filled', request, ?_, fun other start apart => ?_⟩
    · rw [seed, readWhole, hr, ht]
      cases legible : SnapshotSeries.legible e.1 volume <;>
        simp [legible, Except.toOption, Option.filter]
    · rw [seed, if_neg]
      intro hm
      obtain ⟨hs, ht', _⟩ := hm
      rcases apart with apart | apart
      · exact apart hs
      · exact apart (ht ▸ ht')

/-- The volumes chosen for a shard are restored, each in its block. -/
theorem restoreShard_ok {e : Shard × TimeSet} (he : e.2 = r.data.ranges.get e.1)
    (asked : e.2.isEmpty = false) (snapshot : r.data.options.persistence.kind = .snapshot)
    (listed : ∀ infos, files.list r.id e.1 = .ok infos → ∀ info ∈ infos, info.shard = e.1)
    (filled : replay.Filled) (request : replay.request = r)
    (h : (restoreShard files r replay e).outcome = .ok replay') :
    replay'.Filled ∧ replay'.request = r ∧
      (∀ start, replay'.seed e.1 start = (restored? files r e.1 start).elim (replay.seed e.1 start)
        fun v => (replay.seed e.1 start).restore (r.data.ranges.get e.1) v.1 v.2) ∧
      ∀ other, e.1 ≠ other → replay'.seed other = replay.seed other := by
  obtain ⟨_, _, h⟩ := Trail.outcome_bind_eq_ok.mp h
  cases hl : files.list r.id e.1 with
  | error x =>
    rw [hl] at h
    cases h
    refine ⟨filled, request, fun start => ?_, fun _ _ => rfl⟩
    rw [restored?, if_pos snapshot, hl]
    rfl
  | ok infos =>
    rw [hl] at h
    obtain ⟨chosen, hc, h⟩ := Trail.outcome_bind_eq_ok.mp h
    rw [Trail.outcome_foldEach] at h
    have hc := Run.ofFaulty_eq_ok.mp hc
    have source (start : Instant) : restored? files r e.1 start =
        (chosen.get? start).bind fun info => (readWhole files info).map (info, ·) := by
      rw [restored?, if_pos snapshot, hl, ← he]
      change Option.bind (SnapshotInfo.select e.2 r.policy.blockSize infos).toOption _ = _
      rw [hc]
      rfl
    -- each volume changes the block it is for, and no volume another shard
    obtain ⟨⟨filled', request', apart⟩, here, others⟩ := foldlM_keyed
      (fun m : Replay => m.Filled ∧ m.request = r ∧
        ∀ other, e.1 ≠ other → m.seed other = replay.seed other)
      Prod.fst (fun m start => m.seed e.1 start)
      (fun v old new => new = (readWhole files v.2).elim old
        (old.restore (r.data.ranges.get e.1) v.2))
      (fun v hv m m' keep step => by
        obtain ⟨filled, request, apart⟩ := keep
        have pick := SnapshotInfo.select_chosen hc v.1 v.2 (SortedMap.get?_eq_some_iff.mpr hv)
        have ranges : m.dataRanges.get e.1 = r.data.ranges.get e.1 := by
          rw [Replay.dataRanges, request]
        obtain ⟨filled', request', seed, rest⟩ := restoreVolume_ok
          (by rw [ranges, ← he]; exact asked) filled (listed infos hl v.2 pick.listed) pick.start step
        refine ⟨⟨filled', request'.trans request, fun other ho => ?_⟩, ?_, fun start hs => ?_⟩
        · rw [← apart other ho]
          exact funext fun start => rest other start (.inl ho)
        · rw [seed, ranges]
        · exact rest e.1 start (.inr hs))
      chosen.keys_distinct ⟨filled, request, fun _ _ => rfl⟩ h
    refine ⟨filled', request', fun start => ?_, apart⟩
    rw [source]
    cases hg : chosen.get? start with
    | none =>
      refine others start fun v hv eq => ?_
      rw [← eq, SortedMap.get?_eq_some_iff.mpr hv] at hg
      cases hg
    | some info =>
      refine (here (start, info) (SortedMap.get?_eq_some_iff.mp hg)).trans ?_
      cases hw : readWhole files info with
      | none => simp [hw]
      | some volume => simp [hw]

/-- The replay of a request before the log is opened. -/
def restoreAll (files : Files) (r : Request) : Except Failure Replay :=
  if r.data.options.persistence.kind = .snapshot then
    (Trail.foldEach (restoreShard files r) (.ofRequest r) r.data.ranges.entries).outcome
  else .ok (.ofRequest r)

theorem restored?_chosen {shard : Shard} {start : Instant} {v : SnapshotInfo × List SnapshotSeries}
    (h : restored? files r shard start = some v) :
    ∃ infos, files.list r.id shard = .ok infos ∧
      SnapshotInfo.Chosen (r.data.ranges.get shard) infos start v.1 := by
  unfold restored? at h
  split at h
  · obtain ⟨infos, hl, h⟩ := Option.bind_eq_some_iff.mp h
    obtain ⟨chosen, hc, h⟩ := Option.bind_eq_some_iff.mp h
    obtain ⟨info, hi, h⟩ := Option.bind_eq_some_iff.mp h
    obtain ⟨volume, _, rfl⟩ := Option.map_eq_some_iff.mp h
    have toOption {ε α : Type} {x : Except ε α} {a : α} (h : x.toOption = some a) : x = .ok a := by
      cases x <;> simp_all [Except.toOption]
    exact ⟨infos, toOption hl, SnapshotInfo.select_chosen (toOption hc) start info hi⟩
  · cases h

theorem restored?_of_empty {shard : Shard} (h : r.data.ranges.get shard = .empty)
    (start : Instant) : restored? files r shard start = none := by
  rw [Option.eq_none_iff_forall_ne_some]
  intro v hv
  obtain ⟨_, _, chosen⟩ := restored?_chosen hv
  exact chosen.meets (congrArg TimeSet.intervals h)

/-- What the log comes on top of: the points of the restored volume that are asked for. -/
def restoredSeed (files : Files) (r : Request) (shard : Shard) (start : Instant) : Replay.Seed :=
  (restored? files r shard start).elim ⟨none, fun _ => []⟩
    (Replay.Seed.restore ⟨none, fun _ => []⟩ (r.data.ranges.get shard)).uncurry

theorem restoreAll_ok
    (listed : ∀ shard infos, files.list r.id shard = .ok infos → ∀ info ∈ infos, info.shard = shard)
    (h : restoreAll files r = .ok replay) :
    replay.Filled ∧ replay.request = r ∧
      ∀ shard start, replay.seed shard start = restoredSeed files r shard start := by
  have filled : (Replay.ofRequest r).Filled := fun _ _ _ h => by cases h
  unfold restoreAll at h
  split at h
  · rename_i snapshot
    rw [Trail.outcome_foldEach] at h
    obtain ⟨⟨filled', request⟩, here, others⟩ := foldlM_keyed
      (fun m : Replay => m.Filled ∧ m.request = r) Prod.fst (fun m shard => m.seed shard)
      (fun e old new => ∀ start, new start = (restored? files r e.1 start).elim (old start)
        fun v => (old start).restore (r.data.ranges.get e.1) v.1 v.2)
      (fun e he m m' keep step => by
        obtain ⟨filled', request', seed, rest⟩ := restoreShard_ok
          (Coverage.get_of_mem_entries he).symm (r.data.ranges.inhabited e he) snapshot
          (listed e.1) keep.1 keep.2 step
        exact ⟨⟨filled', request'⟩, seed, rest⟩)
      r.data.ranges.sets.keys_distinct ⟨filled, rfl⟩ h
    refine ⟨filled', request, fun shard start => ?_⟩
    have fresh (shard : Shard) : (Replay.ofRequest r).seed shard start = ⟨none, fun _ => []⟩ := rfl
    by_cases held : ∃ e ∈ r.data.ranges.entries, e.1 = shard
    · obtain ⟨e, he, rfl⟩ := held
      apply (here e he start).trans
      rw [fresh]
      rfl
    · have apart : ∀ e ∈ r.data.ranges.entries, e.1 ≠ shard := fun e he eq => held ⟨e, he, eq⟩
      apply (congrFun (others shard apart) start).trans
      have none : r.data.ranges.get shard = .empty := Coverage.get_of_not_mem_entries apart
      rw [fresh, restoredSeed, restored?_of_empty none]
      rfl
  · rename_i other
    cases h
    refine ⟨filled, rfl, fun shard start => ?_⟩
    rw [restoredSeed, restored?, if_neg other]
    rfl

end CommitLog

/-- What neither points that are gathered break nor volumes and gaps that are noted. -/
structure Replay.Lasting (P : Replay → Prop) : Prop where
  gather : ∀ r b, b.points ≠ [] → P r → P (r.gather b)
  note : ∀ r snapshots, P r → P { r with snapshots }
  missShard : ∀ r shard, P r → P (r.missShard shard)
  missBlock : ∀ r shard block, P r → P (r.missBlock shard block)

namespace Replay.Lasting

variable {P : Replay → Prop} {replay replay' : Replay}

theorem foldl_gather (lasting : Lasting P) {l : List Bucket} (hl : ∀ b ∈ l, b.points ≠ [])
    (h : P replay) : P (l.foldl Replay.gather replay) :=
  List.foldlRecOn l Replay.gather h fun m hm b hb => lasting.gather m b (hl b hb) hm

theorem restore (lasting : Lasting P) {info : SnapshotInfo} {volume : List SnapshotSeries}
    (h : replay.restore info volume = .ok replay') (before : P replay) : P replay' := by
  obtain ⟨block, _, rfl⟩ := map_eq_ok.mp h
  dsimp only
  split
  · exact before
  · split
    · exact lasting.missBlock replay info.shard block before
    · exact lasting.note _ _ (lasting.foldl_gather (by simp) before)

open CommitLog

variable {files : Files} {r : Request}

theorem restoreVolume (lasting : Lasting P) {e : Instant × SnapshotInfo} {shard : Shard}
    {size : Duration} (h : (restoreVolume files size shard replay e).outcome = .ok replay')
    (before : P replay) : P replay' := by
  obtain ⟨_, _, h⟩ := Trail.outcome_bind_eq_ok.mp h
  split at h
  · exact lasting.restore (Run.ofFaulty_eq_ok.mp h) before
  · obtain ⟨block, _, rfl⟩ := map_eq_ok.mp (Run.ofFaulty_eq_ok.mp h)
    exact lasting.missBlock replay shard block before

theorem restoreShard (lasting : Lasting P) {e : Shard × TimeSet}
    (h : (restoreShard files r replay e).outcome = .ok replay') (before : P replay) :
    P replay' := by
  obtain ⟨_, _, h⟩ := Trail.outcome_bind_eq_ok.mp h
  split at h
  · cases h
    exact lasting.missShard replay e.1 before
  · obtain ⟨chosen, _, h⟩ := Trail.outcome_bind_eq_ok.mp h
    rw [Trail.outcome_foldEach] at h
    exact foldlM_keeps (fun v _ s s' hs step => lasting.restoreVolume step hs) before h

theorem restoreAll (lasting : Lasting P) (h : restoreAll files r = .ok replay)
    (fresh : P (.ofRequest r)) : P replay := by
  unfold CommitLog.restoreAll at h
  split at h
  · rw [Trail.outcome_foldEach] at h
    exact foldlM_keeps (fun e _ s s' hs step => lasting.restoreShard step hs) fresh h
  · cases h
    exact fresh

/-- Every replay of a read keeps it. -/
theorem restoreRequests (lasting : Lasting P) {replays replays' : Replays}
    {requests : List Request}
    (h : (Trail.foldEach (restoreRequest files) replays requests).outcome = .ok replays')
    (before : ∀ id s, replays.get? id = some s → P s) :
    ∀ id s, replays'.get? id = some s → P s := by
  rw [Trail.outcome_foldEach] at h
  refine foldlM_keeps (P := fun m : Replays => ∀ id s, m.get? id = some s → P s)
    (fun r _ m m' hm step => ?_) before h
  unfold restoreRequest at step
  split at step
  · rename_i seeded _ held
    obtain ⟨restored, restoring, step⟩ := Trail.outcome_bind_eq_ok.mp step
    cases step
    rw [Trail.outcome_foldEach] at restoring
    have kept : P restored :=
      foldlM_keeps (fun e _ s s' hs step => lasting.restoreShard step hs) (hm _ _ held) restoring
    intro id s hs
    rw [SortedMap.get?_insert] at hs
    split at hs
    · cases hs
      exact kept
    · exact hm id s hs
  · cases step
    exact hm

end Replay.Lasting

end Backfill

import Mathlib.Data.List.Basic
import Backfill.Proofs.DataWorkers
import Backfill.Proofs.Folds

/-!
What a read of data from peers leaves missing, and what it holds, where every answer depends on the
call alone and nothing breaks off: window by window, from what became of that window's fetch.
-/

namespace Backfill

def Reply.ok? {α : Type} : Reply α → Option α
  | .ok a => some a
  | _ => none

namespace Peers

/-- What the peers answer to a fetch. -/
def Cluster.blocks (c : Cluster) (nth : Nat) (f : Fetch) : Reply ShardData :=
  match c.openSession nth with
  | .ok session => session.blocks 0 f
  | .error e => .error e

/-- Where flushes are written to. -/
def Cluster.disk? (c : Cluster) (nth : Nat) : Option Disk :=
  c.startFlush.bind fun start => (start nth).toOption

/-- Answers depend on the call alone, and none is that the call broke off. -/
structure Cluster.Steady (c : Cluster) (nth : Nat) : Prop where
  session : ∀ session, c.openSession nth = .ok session → session.SteadyBlocks
  disk : ∀ disk, c.disk? nth = some disk → disk.Steady

/-- Why nothing asked for in the window `w` is delivered. -/
inductive Undelivered (t : Tuning) (c : Cluster) (nth : Nat) (r : Request) (shard : Shard)
    (w : Interval) : Prop
  | fetch (e : Error) (h : c.blocks nth (dataFetch t r shard w) = .error e)
  | load (stays : shouldPersist t r = false) (a : Accumulator) (given : r.accumulator = some a)
      (d : ShardData) (fetched : c.blocks nth (dataFetch t r shard w) = .ok d)
      (h : a.Rejects shard d)
  | write (moves : shouldPersist t r = true) (disk : Disk) (target : c.disk? nth = some disk)
      (d : ShardData) (fetched : c.blocks nth (dataFetch t r shard w) = .ok d)
      (h : disk.Spoils (Flush.fileset (flushTarget r) shard w.start) d)
  | commit (moves : shouldPersist t r = true) (disk : Disk) (target : c.disk? nth = some disk)
      (e : Error) (h : disk.done = .error e)

/-- What was fetched in the windows that `asked` reaches into, the later windows over the earlier
ones. Shards without series are not held. -/
def Gathered (asked : TimeSet) (size : Duration) (fetched : Interval → Reply ShardData)
    (held : Option ShardData) : Prop :=
  ∃ starts : List Instant, starts.Pairwise (· < ·) ∧
    (∀ b, b ∈ starts ↔ ∃ x ∈ asked, x.floor size = b) ∧
    ∃ d, d = (starts.filterMap fun b => (fetched ⟨b, b + size⟩).ok?).foldl .merge .empty ∧
      held = if d.isEmpty then none else some d

/-- `data` is what becomes of a request for data. -/
structure Delivered (t : Tuning) (c : Cluster) (nth : Nat) (r : Request) (data : RecoveredData) :
    Prop where
  missing : ∀ shard x, (shard, x) ∈ data.missing ↔ x ∈ r.data.ranges.get shard ∧
    Undelivered t c nth r shard (Interval.around x r.policy.blockSize)
  held : shouldPersist t r = false → r.accumulator = none →
    ∀ shard, (r.data.ranges.get shard).Canonical →
      Gathered (r.data.ranges.get shard) r.policy.blockSize
        (fun w => c.blocks nth (dataFetch t r shard w)) (data.shards.get? shard)
  handedOn : shouldPersist t r = true ∨ r.accumulator ≠ none → data.shards = .empty

variable {t : Tuning} {c : Cluster} {nth : Nat} {r : Request}

theorem Tuning.queueCapacity_pos (h : t.validate = .ok ()) : 0 < t.queueCapacity := by
  unfold Tuning.validate at h
  split at h
  · cases h
  · split at h
    · cases h
    · split at h
      · cases h
      · rename_i hne
        exact Nat.pos_of_ne_zero hne

theorem openTarget_ok {target : Option (Disk × FlushTarget)}
    (h : (openTarget t c nth r).outcome = .ok target) :
    shouldPersist t r = false ∧ target = none ∨
      shouldPersist t r = true ∧ ∃ disk, c.disk? nth = some disk ∧
        target = some (disk, flushTarget r) := by
  unfold openTarget at h
  cases hp : shouldPersist t r with
  | false =>
    rw [hp] at h
    cases h
    exact .inl ⟨rfl, rfl⟩
  | true =>
    rw [if_pos hp] at h
    split at h
    · rename_i start retriever hstart _
      obtain ⟨_, _, h⟩ := Trail.outcome_bind_eq_ok.mp h
      obtain ⟨_, _, h⟩ := Trail.outcome_bind_eq_ok.mp h
      obtain ⟨_, _, h⟩ := Trail.outcome_bind_eq_ok.mp h
      obtain ⟨disk, hd, h⟩ := Trail.outcome_bind_eq_ok.mp h
      cases h
      refine .inr ⟨rfl, disk, ?_, rfl⟩
      cases hs : start nth with
      | error e =>
        rw [hs] at hd
        cases hd
      | ok disk' =>
        rw [hs] at hd
        cases hd
        simp [Cluster.disk?, hstart, hs, Except.toOption]
    · cases h

/-- Of getting ready to write, no more is told than that it was tried. -/
theorem mem_entries_openTarget {e : Event} (h : e ∈ (openTarget t c nth r).entries) :
    e = .retrieverAsked r.id ∨ e = .flushStarted := by
  unfold openTarget at h
  split at h
  · split at h
    · rcases Trail.mem_entries_bind h with h | ⟨_, _, h⟩
      · exact .inl (List.mem_singleton.mp h)
      rcases Trail.mem_entries_bind h with h | ⟨_, _, h⟩
      · cases h
      rcases Trail.mem_entries_bind h with h | ⟨_, _, h⟩
      · exact .inr (List.mem_singleton.mp h)
      rcases Trail.mem_entries_bind h with h | ⟨_, _, h⟩
      · cases h
      · cases h
    · cases h
  · cases h

theorem readData_ok {data : RecoveredData} (hne : r.data.ranges.isEmpty = false)
    (h : (readData t c nth r).outcome = .ok data) :
    ∃ session target, c.openSession nth = .ok session ∧
      (openTarget t c nth r).outcome = .ok target ∧
      data = (dataOutcome t target r
        ((dataWork t session (delivery r target) r).flatMap ShardWork.actions)).data.addAllMissing
          (ShardWork.lost (dataWork t session (delivery r target) r)) := by
  rw [readData, if_neg (by simp [hne])] at h
  obtain ⟨_, _, h⟩ := Trail.outcome_bind_eq_ok.mp h
  obtain ⟨session, hs, h⟩ := Trail.outcome_bind_eq_ok.mp h
  obtain ⟨target, ht, h⟩ := Trail.outcome_bind_eq_ok.mp h
  obtain ⟨_, _, h⟩ := Trail.outcome_bind_eq_ok.mp h
  cases h
  refine ⟨session, target, ?_, ht, rfl⟩
  cases ho : c.openSession nth with
  | error e =>
    rw [ho] at hs
    cases hs
  | ok session' =>
    rw [ho] at hs
    cases hs
    rfl

theorem lost_eq_empty {ε : Type} {l : List (ShardWork ε)}
    (h : ∀ w ∈ l, w.work.outcome = .ok ()) : ShardWork.lost l = .empty := by
  have none : l.filter ShardWork.abandoned = [] := by
    rw [List.filter_eq_nil_iff]
    intro w hw
    simp [ShardWork.abandoned, h w hw]
  rw [ShardWork.lost, none]
  rfl

theorem mem_lost {ε : Type} {l : List (ShardWork ε)} {p : Shard × Instant} :
    p ∈ ShardWork.lost l ↔ ∃ w ∈ l, w.abandoned = true ∧ p.1 = w.shard ∧ p.2 ∈ w.asked := by
  have adds := foldl_adds (f := fun (c : Coverage) (w : ShardWork ε) => c.addSet w.shard w.asked)
    Coverage.Canonical (fun c p => p ∈ c) (fun w p => p.1 = w.shard ∧ p.2 ∈ w.asked)
    (l := l.filter ShardWork.abandoned)
    (fun w _ c canonical => ⟨canonical.addSet _ _, fun p => Coverage.mem_addSet canonical⟩)
    Coverage.Canonical.empty
  rw [ShardWork.lost, adds.2, or_iff_right (Coverage.not_mem_empty p)]
  simp only [List.mem_filter, and_assoc]

section Work

variable {session : Session} {how : Delivery}

/-- The size of a namespace's windows and what is asked for fit into words. Windows are counted in
instants, so what is asked for begins and ends away from leap seconds. -/
structure Fits (r : Request) : Prop where
  size : FitsWord r.policy.blockSize
  ranges : r.data.ranges.FitsWords

/-- The windows that are asked for of a shard. -/
def slicesFor (r : Request) (shard : Shard) : List TimeSet.Slice :=
  ((r.data.ranges.get shard).slices r.policy.blockSize).entries

/-- What the worker of a shard does. -/
def workFor (t : Tuning) (session : Session) (how : Delivery) (r : Request) (shard : Shard) :
    DataWork :=
  DataWork.shard session how (dataFetch t r shard) r.policy.blockSize shard
    (r.data.ranges.get shard)

theorem workFor_eq (steady : session.SteadyBlocks) (calm : how.Calm) (fits : Fits r)
    (shard : Shard) : workFor t session how r shard =
      ⟨(slicesFor r shard).flatMap fun v =>
        (DataWork.slice session how (dataFetch t r shard) shard (0, v)).entries, .ok ()⟩ :=
  DataWork.shard_eq steady calm (dataFetch t r shard) r.policy.blockSize_pos fits.size shard
    (fits.ranges shard)

/-- Whatever it is answered, the worker goes through its windows to the end. -/
theorem workFor_calm (talks : session.CalmBlocks) (calm : how.Calm) (fits : Fits r)
    (shard : Shard) : workFor t session how r shard =
      ⟨(slicesFor r shard).zipIdx.flatMap fun p =>
        (DataWork.slice session how (dataFetch t r shard) shard (p.2, p.1)).entries, .ok ()⟩ :=
  DataWork.shard_calm talks calm (dataFetch t r shard) r.policy.blockSize_pos fits.size shard
    (fits.ranges shard)

theorem dataWork_eq : dataWork t session how r =
    r.data.ranges.entries.map fun e => ⟨e.1, e.2, workFor t session how r e.1⟩ := by
  refine List.map_congr_left fun e he => ?_
  rw [workFor, Coverage.get_of_mem_entries he]

theorem dataWork_eq_nil (none : r.data.ranges.isEmpty = true) : dataWork t session how r = [] := by
  rw [dataWork, Coverage.eq_empty_of_isEmpty none]
  rfl

theorem lost_calm (talks : session.CalmBlocks) (calm : how.Calm) (fits : Fits r) :
    ShardWork.lost (dataWork t session how r) = .empty := by
  rw [dataWork_eq]
  refine lost_eq_empty fun w hw => ?_
  obtain ⟨e, _, rfl⟩ := List.mem_map.mp hw
  rw [workFor_calm talks calm fits]

theorem lost_dataWork (steady : session.SteadyBlocks) (calm : how.Calm) (fits : Fits r) :
    ShardWork.lost (dataWork t session how r) = .empty := lost_calm steady.talks calm fits

/-- Of all actions, those of one shard are those of its worker, in order. -/
theorem filter_actions (shard : Shard) :
    ((dataWork t session how r).flatMap ShardWork.actions).filter (·.1 = shard) =
      (workFor t session how r shard).entries.map (shard, ·) := by
  rw [dataWork_eq, List.flatMap_map]
  refine (SortedMap.filter_flatMap_entries r.data.ranges.sets
    (fun shard _ => (workFor t session how r shard).entries) shard).trans ?_
  cases h : r.data.ranges.sets.get? shard with
  | some asked => rfl
  | none =>
    have none : r.data.ranges.get shard = .empty := by
      rw [Coverage.get, h]
      rfl
    rw [workFor, none]
    rfl

theorem mem_worker {shard : Shard} {a : DataAction} :
    (shard, a) ∈ (dataWork t session how r).flatMap ShardWork.actions ↔
      a ∈ (workFor t session how r shard).entries := by
  have only : (shard, a) ∈ (dataWork t session how r).flatMap ShardWork.actions ↔ (shard, a) ∈
      ((dataWork t session how r).flatMap ShardWork.actions).filter (·.1 = shard) := by
    simp
  rw [only, filter_actions]
  simp

theorem mem_actions (steady : session.SteadyBlocks) (calm : how.Calm) (fits : Fits r)
    {shard : Shard} {a : DataAction} :
    (shard, a) ∈ (dataWork t session how r).flatMap ShardWork.actions ↔ ∃ v ∈ slicesFor r shard,
      a ∈ (DataWork.slice session how (dataFetch t r shard) shard (0, v)).entries := by
  rw [mem_worker, workFor_eq steady calm fits, List.mem_flatMap]

theorem keptFor_actions (steady : session.SteadyBlocks) (calm : how.Calm) (fits : Fits r)
    (shard : Shard) :
    DataState.keptFor shard ((dataWork t session how r).flatMap ShardWork.actions) =
      (slicesFor r shard).flatMap fun v =>
        DataWork.keptOf how (session.blocks 0 (dataFetch t r shard v.window)) := by
  rw [DataState.keptFor, filter_actions, workFor_eq steady calm fits, List.filterMap_map]
  change List.filterMap DataAction.kept _ = _
  rw [List.filterMap_flatMap]
  refine List.flatMap_congr fun v _ => ?_
  exact (DataWork.slice_handles steady calm _ shard 0 v).kept

/-- Each window holds the part that is asked of it. -/
theorem exists_within (fits : Fits r) {shard : Shard} {v : TimeSet.Slice}
    (hv : v ∈ slicesFor r shard) :
    ∃ q ∈ (r.data.ranges.get shard).intervals, v.Within q r.policy.blockSize :=
  TimeSet.exists_within r.policy.blockSize_pos fits.size (fits.ranges shard) hv

/-- What is asked for is in the part of some window. -/
theorem mem_slicesFor (fits : Fits r) {shard : Shard} {x : Instant} :
    x ∈ r.data.ranges.get shard ↔ ∃ v ∈ slicesFor r shard, x ∈ v.part :=
  TimeSet.mem_iff_slice r.policy.blockSize_pos fits.size (fits.ranges shard)

/-- What is left of a window needs no other. -/
theorem windows_part (fits : Fits r) {shard : Shard} {v : TimeSet.Slice}
    (hv : v ∈ slicesFor r shard) :
    v.part.windows r.policy.blockSize = ⟨[v.window], .ok ()⟩ := by
  obtain ⟨q, hq, within⟩ := exists_within fits hv
  exact within.windows_part r.policy.blockSize_pos fits.size (fits.ranges shard q hq)

theorem oneWindow_flush (fits : Fits r) {shard : Shard} {v : TimeSet.Slice}
    (hv : v ∈ slicesFor r shard) (d : ShardData) :
    (DataAction.flush v.part d).OneWindow r.policy.blockSize := by
  obtain ⟨_, _, within⟩ := exists_within fits hv
  intro part d' eq
  cases eq
  rw [windows_part fits hv, within.window_eq within.start_mem]

theorem oneWindow_actions (steady : session.SteadyBlocks) (calm : how.Calm) (fits : Fits r)
    {a : Shard × DataAction} (ha : a ∈ (dataWork t session how r).flatMap ShardWork.actions) :
    a.2.OneWindow r.policy.blockSize := by
  obtain ⟨shard, a⟩ := a
  obtain ⟨v, hv, ha⟩ := (mem_actions steady calm fits).mp ha
  intro part d eq
  dsimp only at eq
  subst eq
  obtain ⟨rfl, _, _⟩ := ((DataWork.slice_handles steady calm _ shard 0 v).flush part d).mp ha
  exact oneWindow_flush fits hv d v.part d rfl

/-- What a window's worker or the consumer of its flush fails at. -/
def Breaks (t : Tuning) (session : Session) (target : Option (Disk × FlushTarget)) (r : Request)
    (shard : Shard) (w : Interval) : Prop :=
  DataWork.Fails session (delivery r target) (dataFetch t r shard) shard w ∨
    ∃ disk, target = some (disk, flushTarget r) ∧
      ∃ d, session.blocks 0 (dataFetch t r shard w) = .ok d ∧
        disk.Spoils (Flush.fileset (flushTarget r) shard w.start) d

theorem delivery_matches_persist {target : Option (Disk × FlushTarget)} :
    delivery r target matches .persist ↔ target.isSome := by
  unfold delivery
  cases target with
  | some disk => simp
  | none => cases r.accumulator <;> simp

theorem window_eq_around (fits : Fits r) {shard : Shard} {v : TimeSet.Slice}
    (hv : v ∈ slicesFor r shard) {x : Instant} (hx : x ∈ v.part) :
    v.window = Interval.around x r.policy.blockSize := by
  obtain ⟨_, _, within⟩ := exists_within fits hv
  exact within.window_eq hx

theorem window_start_eq (fits : Fits r) {shard : Shard} {v : TimeSet.Slice}
    (hv : v ∈ slicesFor r shard) :
    v.window.start = v.part.start.floor r.policy.blockSize := by
  obtain ⟨_, _, within⟩ := exists_within fits hv
  rw [within.window_eq within.start_mem]
  rfl

/-- A window loses what was asked for in it just when it breaks. -/
theorem loses_in_window (steady : session.SteadyBlocks) {target : Option (Disk × FlushTarget)}
    (calm : (delivery r target).Calm) (fits : Fits r)
    (files : ∀ d, target = some d → d.2 = flushTarget r) {shard : Shard} {v : TimeSet.Slice}
    (hv : v ∈ slicesFor r shard) (x : Instant) :
    (∃ a ∈ (DataWork.slice session (delivery r target) (dataFetch t r shard) shard (0, v)).entries,
        DataAction.Loses target (shard, a) (shard, x)) ↔
      x ∈ v.part ∧ Breaks t session target r shard v.window := by
  have handles := DataWork.slice_handles steady calm (dataFetch t r shard) shard 0 v
  constructor
  · intro h
    obtain ⟨a, ha, _, hl⟩ := h
    cases a with
    | event e => cases hl
    | keep d => cases hl
    | miss part =>
      obtain ⟨rfl, fails⟩ := (handles.miss part).mp ha
      exact ⟨hl, .inl fails⟩
    | flush part d =>
      obtain ⟨rfl, persists, fetched⟩ := (handles.flush part d).mp ha
      cases target with
      | none => cases delivery_matches_persist.mp persists
      | some disk =>
        obtain ⟨disk, place⟩ := disk
        obtain rfl : place = flushTarget r := files _ rfl
        obtain ⟨hx, spoils⟩ := hl
        change disk.Spoils (Flush.fileset (flushTarget r) shard
          (v.part.start.floor r.policy.blockSize)) d at spoils
        rw [← window_start_eq fits hv] at spoils
        exact ⟨hx, .inr ⟨disk, rfl, d, fetched, spoils⟩⟩
  · intro h
    obtain ⟨hx, fails | ⟨disk, rfl, d, fetched, spoils⟩⟩ := h
    · exact ⟨.miss v.part, (handles.miss v.part).mpr ⟨rfl, fails⟩, rfl, hx⟩
    · refine ⟨.flush v.part d, (handles.flush v.part d).mpr ⟨rfl, rfl, fetched⟩, rfl, hx, ?_⟩
      rw [window_start_eq fits hv] at spoils
      exact spoils

/-- Of what was asked for, the actions lose what lies in a window that breaks. -/
theorem exists_loses_iff (steady : session.SteadyBlocks) {target : Option (Disk × FlushTarget)}
    (calm : (delivery r target).Calm) (fits : Fits r)
    (files : ∀ d, target = some d → d.2 = flushTarget r) (shard : Shard) (x : Instant) :
    (∃ a ∈ (dataWork t session (delivery r target) r).flatMap ShardWork.actions,
        DataAction.Loses target a (shard, x)) ↔
      x ∈ r.data.ranges.get shard ∧
        Breaks t session target r shard (Interval.around x r.policy.blockSize) := by
  have lost {v : TimeSet.Slice} (hv : v ∈ slicesFor r shard) :=
    loses_in_window (t := t) steady calm fits files hv x
  constructor
  · intro h
    obtain ⟨⟨other, a⟩, ha, hl⟩ := h
    obtain rfl : shard = other := hl.1
    obtain ⟨v, hv, ha⟩ := (mem_actions steady calm fits).mp ha
    obtain ⟨hx, breaks⟩ := (lost hv).mp ⟨a, ha, hl⟩
    rw [window_eq_around fits hv hx] at breaks
    exact ⟨(mem_slicesFor fits).mpr ⟨v, hv, hx⟩, breaks⟩
  · intro h
    obtain ⟨hx, breaks⟩ := h
    obtain ⟨v, hv, hx⟩ := (mem_slicesFor fits).mp hx
    rw [← window_eq_around fits hv hx] at breaks
    obtain ⟨a, ha, hl⟩ := (lost hv).mpr ⟨hx, breaks⟩
    exact ⟨(shard, a), (mem_actions steady calm fits).mpr ⟨v, hv, ha⟩, hl⟩

end Work

theorem gathered_slices (fits : Fits r) {shard : Shard}
    (canonical : (r.data.ranges.get shard).Canonical) (fetched : Interval → Reply ShardData)
    {held : Option ShardData} {d : ShardData}
    (hd : d = ((slicesFor r shard).filterMap fun v => (fetched v.window).ok?).foldl .merge .empty)
    (hheld : held = if d.isEmpty then none else some d) :
    Gathered (r.data.ranges.get shard) r.policy.blockSize fetched held := by
  have hs := r.policy.blockSize_pos
  have ascend := TimeSet.slices_ascend hs fits.size (fits.ranges shard) canonical
  obtain ⟨starts, strict, mem, fold⟩ := Instant.exists_strict (List.pairwise_map.mpr ascend)
    (fun b => (fetched ⟨b, b + r.policy.blockSize⟩).ok?) ShardData.merge ShardData.merge_merge
  refine ⟨starts, strict, fun b => ?_, d, ?_, hheld⟩
  · rw [mem, List.mem_map]
    constructor
    · intro h
      obtain ⟨v, hv, rfl⟩ := h
      obtain ⟨_, _, within⟩ := exists_within fits hv
      refine ⟨v.part.start, ?_, (window_start_eq fits hv).symm⟩
      exact (mem_slicesFor fits).mpr ⟨v, hv, within.start_mem⟩
    · intro h
      obtain ⟨x, hx, rfl⟩ := h
      obtain ⟨v, hv, hx⟩ := (mem_slicesFor fits).mp hx
      refine ⟨v, hv, ?_⟩
      rw [window_eq_around fits hv hx]
      rfl
  · rw [hd, fold, List.filterMap_map]
    refine congrArg (List.foldl ShardData.merge .empty) (List.filterMap_congr fun v hv => ?_)
    obtain ⟨_, _, within⟩ := exists_within fits hv
    rw [Function.comp_apply, ← within.aligned.stop]

theorem delivered_empty (h : r.data.ranges.isEmpty = true) : Delivered t c nth r .empty := by
  have none (shard : Shard) := Coverage.get_of_isEmpty h shard
  refine ⟨fun shard x => ?_, fun _ _ shard _ => ?_, fun _ => rfl⟩
  · rw [none]
    simp [RecoveredData.empty, TimeSet.not_mem_empty]
  · rw [none]
    refine ⟨[], .nil, fun b => ?_, .empty, rfl, rfl⟩
    simp [TimeSet.not_mem_empty]

theorem run_none_queue (s : DataState) (l : List (Shard × DataAction)) :
    (s.run none l).queue = s.queue := by
  induction l generalizing s with
  | nil => rfl
  | cons a l ih =>
    obtain ⟨shard, a⟩ := a
    rw [DataState.run, List.foldl_cons]
    apply (ih _).trans
    cases a <;> rfl

/-- A shard holds what was kept for it in the end, whatever became of the flushes. -/
theorem dataOutcome_held (t : Tuning) (target : Option (Disk × FlushTarget)) (r : Request)
    (l : List (Shard × DataAction)) (shard : Shard) :
    (dataOutcome t target r l).data.shards.get? shard =
      let d := (DataState.keptFor shard l).foldl .merge .empty
      if d.isEmpty then none else some d := by
  have filled : ((DataState.ofCapacity t.queueCapacity).run target l).data.Filled :=
    DataState.run_filled l fun _ _ h => by cases h
  have shards := filled.get?_eq shard
  rw [DataState.run_held] at shards
  cases target with
  | none => exact shards
  | some d => exact (congrArg (·.get? shard) (DataState.finish_shards _ d.1 _)).trans shards

/-- What the actions of the workers leave missing, where each flush is written or refused. -/
theorem dataOutcome_settles {target : Option (Disk × FlushTarget)} (valid : t.validate = .ok ())
    {bad : Flush → Prop} {l : List (Shard × DataAction)}
    (settles : ∀ a ∈ l, ∀ part d, a.2 = .flush part d → ∀ t, target = some t →
      Flush.Settles ⟨a.1, d, part⟩ t (bad ⟨a.1, d, part⟩)) :
    (dataOutcome t target r l).data.missing.Canonical ∧
      ∀ p, p ∈ (dataOutcome t target r l).data.missing ↔
        (∃ a ∈ l, DataAction.LosesIf target bad a p) ∨
          (∃ d, target = some d ∧ ∃ e, d.1.done = .error e) ∧ p ∈ r.data.ranges := by
  have start := DataState.sound_ofCapacity (Tuning.queueCapacity_pos valid)
  obtain ⟨sound, lacks⟩ := DataState.run_settles start settles
  have lacks (p : Shard × Instant) := (lacks p).trans (or_iff_right (by
    simp [DataState.Lacks, DataState.ofCapacity, RecoveredData.empty, FlushQueue.ofCapacity]))
  cases target with
  | none =>
    refine ⟨sound.data, fun p => ?_⟩
    have queue : p ∉ ((DataState.ofCapacity t.queueCapacity).run none l).queue.missing := by
      rw [run_none_queue]
      exact Coverage.not_mem_empty p
    have missing := lacks p
    simp only [DataState.Lacks, queue, or_false] at missing
    rw [dataOutcome, missing]
    simp
  | some d =>
    refine ⟨DataState.finish_canonical sound.data _ _, fun p => ?_⟩
    apply (DataState.finish_step sound d.1 r.data.ranges p).trans
    rw [lacks]
    simp

/-- What the actions of the workers come to in the end. -/
theorem dataOutcome_steps {target : Option (Disk × FlushTarget)} (valid : t.validate = .ok ())
    (steady : ∀ d, target = some d → d.1.Steady) {l : List (Shard × DataAction)}
    (one : ∀ a ∈ l, ∀ d, target = some d → a.2.OneWindow d.2.blockSize) :
    (dataOutcome t target r l).data.missing.Canonical ∧
      (∀ p, p ∈ (dataOutcome t target r l).data.missing ↔
        (∃ a ∈ l, DataAction.Loses target a p) ∨
          (∃ d, target = some d ∧ ∃ e, d.1.done = .error e) ∧ p ∈ r.data.ranges) ∧
      ∀ shard, (dataOutcome t target r l).data.shards.get? shard =
        let d := (DataState.keptFor shard l).foldl .merge .empty
        if d.isEmpty then none else some d := by
  obtain ⟨canonical, missing⟩ := dataOutcome_settles (r := r) valid
    (DataAction.settles_of_steady steady one)
  simp only [DataAction.loses_iff]
  exact ⟨canonical, missing, dataOutcome_held t target r l⟩

theorem keptOf_keep (reply : Reply ShardData) :
    DataWork.keptOf .keep reply = reply.ok?.toList := by
  cases reply <;> rfl

theorem keptOf_of_ne_keep {how : Delivery} (h : how ≠ .keep) (reply : Reply ShardData) :
    DataWork.keptOf how reply = [] := by
  cases how with
  | keep => exact absurd rfl h
  | load a => cases reply <;> rfl
  | persist => cases reply <;> rfl

theorem delivery_calm (target : Option (Disk × FlushTarget))
    (calm : ∀ a, r.accumulator = some a → a.Calm) : (delivery r target).Calm := by
  unfold delivery
  cases target with
  | some d => trivial
  | none =>
    cases h : r.accumulator with
    | none => trivial
    | some a => exact calm a h

/-- What goes wrong, seen from the session and the target that a read came to use. -/
theorem undelivered_iff {session : Session} (opened : c.openSession nth = .ok session)
    {target : Option (Disk × FlushTarget)} (ht : (openTarget t c nth r).outcome = .ok target)
    {shard : Shard} {w : Interval} :
    Undelivered t c nth r shard w ↔ Breaks t session target r shard w ∨
      ∃ d, target = some d ∧ ∃ e, d.1.done = .error e := by
  have answers (f : Fetch) : c.blocks nth f = session.blocks 0 f := by
    rw [Cluster.blocks, opened]
  constructor
  · rintro (⟨e, h⟩ | ⟨stays, a, given, d, fetched, h⟩ | ⟨moves, disk, hdisk, d, fetched, h⟩ |
      ⟨moves, disk, hdisk, e, h⟩)
    · rw [answers] at h
      exact .inl (.inl (.fetch e h))
    · rw [answers] at fetched
      rcases openTarget_ok ht with ⟨_, rfl⟩ | ⟨moves, _⟩
      · exact .inl (.inl (.load a (by simp [delivery, given]) d fetched h))
      · rw [stays] at moves
        cases moves
    · rw [answers] at fetched
      rcases openTarget_ok ht with ⟨stays, _⟩ | ⟨_, disk', hdisk', rfl⟩
      · rw [moves] at stays
        cases stays
      · rw [hdisk] at hdisk'
        cases hdisk'
        exact .inl (.inr ⟨disk, rfl, d, fetched, h⟩)
    · rcases openTarget_ok ht with ⟨stays, _⟩ | ⟨_, disk', hdisk', rfl⟩
      · rw [moves] at stays
        cases stays
      · rw [hdisk] at hdisk'
        cases hdisk'
        exact .inr ⟨(disk, flushTarget r), rfl, e, h⟩
  · intro hm
    rcases hm with ((⟨e, h⟩ | ⟨a, loads, d, fetched, h⟩) | ⟨disk, rfl, d, fetched, h⟩) | ⟨d, rfl, e, h⟩
    · exact .fetch e ((answers _).trans h)
    · rcases openTarget_ok ht with ⟨stays, rfl⟩ | ⟨_, disk, _, rfl⟩
      · refine .load stays a ?_ d ((answers _).trans fetched) h
        cases given : r.accumulator with
        | none => simp [delivery, given] at loads
        | some b =>
          simp only [delivery, given, Delivery.load.injEq] at loads
          rw [loads]
      · cases loads
    · rcases openTarget_ok ht with ⟨_, none⟩ | ⟨moves, disk', hdisk, same⟩
      · cases none
      · cases same
        exact .write moves disk hdisk d ((answers _).trans fetched) h
    · rcases openTarget_ok ht with ⟨_, none⟩ | ⟨moves, disk', hdisk, same⟩
      · cases none
      · cases same
        exact .commit moves disk' hdisk e h

/-- Has one series in every window, but no answer for shard 0 in the window at 10. -/
def patchy : Session where
  blocks _ f :=
    if f.shard = 0 ∧ f.window.start = 10 then .error (.peerFetch "down")
    else .ok (ShardData.empty.addBlock [1] .empty f.window.start ⟨[], 0⟩)
  metadata _ _ := .ok []

theorem patchy_steady : patchy.SteadyBlocks := by
  refine ⟨fun _ _ => rfl, fun f => ?_⟩
  simp only [patchy]
  split <;> simp

/-- Has no room for the files of shard 1. -/
def cramped : Disk where
  answer _ call :=
    match call with
    | .close f => if f.shard = 1 then .error (.persist "full") else .ok ()
    | _ => .ok ()
  done := .ok ()

theorem cramped_steady : cramped.Steady := by
  refine ⟨fun _ _ => rfl, fun call => ?_⟩
  cases call with
  | close f =>
    simp only [cramped]
    split <;> simp
  | _ => simp [cramped]

end Peers

end Backfill

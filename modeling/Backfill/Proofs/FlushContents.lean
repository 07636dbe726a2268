import Mathlib.Data.List.Perm.Basic
import Backfill.Proofs.Tiling
import Backfill.Proofs.WillingDisk

/-!
Which of the blocks of a flush reach the disk. The files of a window take the blocks that start
where it does. A flush that comes to its end without an error has written those of its windows, each
once, and no others: a block that starts later in the window stays behind, and nothing of it is
missing.
-/

namespace Backfill

/-- The values under one key. -/
theorem SortedMap.filter_entries {κ α : Type} [LT κ] [DecidableEq κ] [KeyOrder κ]
    (m : SortedMap κ α) (k : κ) :
    m.entries.filter (·.1 = k) = (m.get? k).toList.map (k, ·) := by
  have single := m.filter_flatMap_entries (fun _ a => [a]) k
  simp only [List.map_cons, List.map_nil, ← List.map_eq_flatMap, List.map_id'] at single
  rw [single]
  cases m.get? k <;> rfl

/-- Picking out key by key is picking out those with one of the keys. -/
theorem perm_flatMap_filter {α κ : Type} [DecidableEq κ] (key : α → κ) {keys : List κ}
    (distinct : keys.Nodup) (l : List α) :
    (keys.flatMap fun k => l.filter (key · = k)).Perm (l.filter (key · ∈ keys)) := by
  induction keys with
  | nil => simp
  | cons k keys ih =>
    obtain ⟨fresh, distinct⟩ := List.nodup_cons.mp distinct
    have here : (l.filter (key · ∈ k :: keys)).filter (key · = k) = l.filter (key · = k) := by
      rw [List.filter_filter]
      refine List.filter_congr fun a _ => ?_
      by_cases same : key a = k <;> simp [same]
    have rest : (l.filter (key · ∈ k :: keys)).filter (fun a => !decide (key a = k)) =
        l.filter (key · ∈ keys) := by
      rw [List.filter_filter]
      refine List.filter_congr fun a _ => ?_
      by_cases same : key a = k
      · simp [same, fresh]
      · simp [same]
    have split := List.filter_append_perm (fun a => decide (key a = k))
      (l.filter (key · ∈ k :: keys))
    rw [here, rest] at split
    exact ((ih distinct).append_left _).trans split

/-- A block with the files that it goes into and the series that it is of. -/
abbrev PlacedBlock := Fileset × SeriesId × Tags × Block

/-- What the disk has taken, in order. -/
def DiskHistory.taken (h : DiskHistory) : List PlacedBlock :=
  h.filterMap fun
    | (.persist f id tags b, .ok ()) => some (f, id, tags, b)
    | _ => none

namespace Flush

/-- All blocks of a flush, each for the files that start with it. -/
def blocks (t : FlushTarget) (flush : Flush) : List PlacedBlock :=
  flush.data.series.entries.flatMap fun e =>
    e.2.blocks.entries.map fun b => (fileset t flush.shard b.1, e.1, e.2.tags, b.2)

/-- Where the windows start that a flush writes. -/
def starts (t : FlushTarget) (flush : Flush) : List Instant :=
  (flush.part.windows t.blockSize).entries.map (·.start)

variable {t : FlushTarget} {flush : Flush}

theorem mem_blocks {b : PlacedBlock} : b ∈ flush.blocks t ↔
    ∃ id s start block, flush.data.series.get? id = some s ∧ s.blocks.get? start = some block ∧
      b = (fileset t flush.shard start, id, s.tags, block) := by
  simp only [blocks, List.mem_flatMap, List.mem_map]
  constructor
  · intro h
    obtain ⟨⟨id, s⟩, held, ⟨start, block⟩, here, rfl⟩ := h
    exact ⟨id, s, start, block, SortedMap.get?_eq_some_iff.mpr held,
      SortedMap.get?_eq_some_iff.mpr here, rfl⟩
  · intro h
    obtain ⟨id, s, start, block, held, here, rfl⟩ := h
    exact ⟨(id, s), SortedMap.get?_eq_some_iff.mp held, (start, block),
      SortedMap.get?_eq_some_iff.mp here, rfl⟩

/-- No block is there twice. -/
theorem blocks_nodup (t : FlushTarget) (flush : Flush) : (flush.blocks t).Nodup := by
  rw [blocks, List.Nodup, List.pairwise_flatMap]
  refine ⟨fun e _ => ?_, flush.data.series.keys_distinct.imp fun differ b hb c hc => ?_⟩
  · rw [List.pairwise_map]
    refine e.2.blocks.keys_distinct.imp fun differ same => differ ?_
    exact congrArg (·.1.start) same
  · obtain ⟨_, _, rfl⟩ := List.mem_map.mp hb
    obtain ⟨_, _, rfl⟩ := List.mem_map.mp hc
    intro same
    exact differ (congrArg (·.2.1) same)

/-- All blocks start at `start` just when all are for the files there. -/
theorem startAt_iff {start : Instant} :
    flush.data.StartAt start ↔ ∀ b ∈ flush.blocks t, b.1.start = start := by
  constructor
  · intro all b hb
    obtain ⟨id, s, time, block, held, here, rfl⟩ := mem_blocks.mp hb
    exact all id s time block held here
  · intro all id s time block held here
    exact all _ (mem_blocks.mpr ⟨id, s, time, block, held, here, rfl⟩)

/-- What goes into the files that start at `start`. -/
theorem filter_blocks (t : FlushTarget) (flush : Flush) (start : Instant) :
    (flush.blocks t).filter (·.1.start = start) =
      (blocksFor (fileset t flush.shard start) flush.data).map (fileset t flush.shard start, ·) := by
  rw [blocks, blocksFor, List.filter_flatMap, List.map_filterMap,
    List.filterMap_eq_flatMap_toList]
  refine List.flatMap_congr fun e _ => ?_
  rw [List.filter_map]
  change List.map _ (e.2.blocks.entries.filter (·.1 = start)) = _
  rw [SortedMap.filter_entries]
  change _ = (Option.map _ (Option.map _ (e.2.blocks.get? start))).toList
  cases e.2.blocks.get? start <;> rfl

section Writing

variable {disk : Disk} {f : Fileset} {nth : Nat}

theorem taken_append (a b : DiskHistory) :
    DiskHistory.taken (a ++ b) = DiskHistory.taken a ++ DiskHistory.taken b :=
  List.filterMap_append

theorem taken_persistBlocks {l : List (SeriesId × Tags × Block)}
    (h : (persistBlocks disk f nth l).outcome = .ok ()) :
    DiskHistory.taken (persistBlocks disk f nth l).entries = l.map (f, ·) := by
  induction l generalizing nth with
  | nil => rfl
  | cons b l ih =>
    obtain ⟨_, first, rest⟩ := Trail.outcome_bind_eq_ok.mp h
    obtain ⟨_, asked, _⟩ := Trail.outcome_bind_eq_ok.mp first
    have entries : (persistBlocks disk f nth (b :: l)).entries = _ := Trail.entries_bind first
    have here : (persistBlock disk f nth b).entries = _ := Trail.entries_bind asked
    rw [ask_ok asked] at here
    rw [entries, taken_append, ih rest, here]
    rfl

theorem taken_writeFileset {d : ShardData} (h : (writeFileset disk f nth d).outcome = .ok ()) :
    DiskHistory.taken (writeFileset disk f nth d).entries = (blocksFor f d).map (f, ·) := by
  obtain ⟨_, prepared, rest⟩ := Trail.outcome_bind_eq_ok.mp h
  have entries : (writeFileset disk f nth d).entries = _ := Trail.entries_bind prepared
  rw [ask_ok prepared] at entries
  obtain ⟨persisted, closed⟩ := closeAfter_ok rest
  rw [entries, taken_append, closed, taken_append, taken_persistBlocks persisted]
  exact List.append_nil _

theorem taken_writeWindows {l : List Interval}
    (h : (writeWindows disk t flush nth l).outcome = .ok ()) :
    DiskHistory.taken (writeWindows disk t flush nth l).entries =
      (l.map (·.start)).flatMap fun start => (flush.blocks t).filter (·.1.start = start) := by
  induction l generalizing nth with
  | nil => rfl
  | cons w l ih =>
    obtain ⟨_, first, rest⟩ := Trail.outcome_bind_eq_ok.mp h
    have entries : (writeWindows disk t flush nth (w :: l)).entries = _ := Trail.entries_bind first
    rw [entries, taken_append, ih rest, taken_writeFileset first, List.map_cons, List.flatMap_cons,
      filter_blocks]

/-- Of the blocks of a flush, those are written that start with one of its windows. -/
theorem taken_write (hs : 0 < t.blockSize) (h : (write disk t nth flush).outcome = .ok ()) :
    (DiskHistory.taken (write disk t nth flush).entries).Perm
      ((flush.blocks t).filter (·.1.start ∈ flush.starts t)) := by
  obtain ⟨_, written, _⟩ := Trail.outcome_bind_eq_ok.mp h
  have entries : (write disk t nth flush).entries = _ := Trail.entries_bind written
  rw [entries, taken_append, taken_writeWindows written]
  refine (List.Perm.of_eq (List.append_nil _)).trans ?_
  exact perm_flatMap_filter (fun b : PlacedBlock => b.1.start) (Interval.starts_nodup hs flush.part) _

/-- All blocks are written just when each starts with a window. -/
theorem taken_all (hs : 0 < t.blockSize) (h : (write disk t nth flush).outcome = .ok ()) :
    (DiskHistory.taken (write disk t nth flush).entries).Perm (flush.blocks t) ↔
      ∀ b ∈ flush.blocks t, b.1.start ∈ flush.starts t := by
  have written := taken_write hs h
  constructor
  · intro all b hb
    have kept := (written.symm.trans all).mem_iff.mpr hb
    simpa using (List.mem_filter.mp kept).2
  · intro all
    rw [List.filter_eq_self.mpr fun b hb => by simpa using all b hb] at written
    exact written

end Writing

end Flush

namespace Peers

variable {t : Tuning} {r : Request} {session : Session} {disk : Disk} {nth : Nat} {shard : Shard}
  {part : Interval} {d : ShardData}

/-- Where a flush comes from that a worker hands on. -/
theorem exists_fetched
    (h : (shard, .flush part d) ∈ (dataWork t session .persist r).flatMap ShardWork.actions) :
    ∃ n, ∃ v ∈ slicesFor r shard, part = v.part ∧
      session.blocks n (dataFetch t r shard v.window) = .ok d := by
  obtain ⟨n, v, hv, h⟩ := DataWork.mem_shard (mem_worker.mp h)
  rcases DataWork.mem_slice_persist h with h | ⟨_, h⟩ | h <;> cases h
  rename_i fetched
  exact ⟨n, v, hv, rfl, fetched⟩

/-- Whatever a fetch brought: a flush of it that comes to its end without an error has written just
the blocks that start with one of its windows, each once. Its window is the one that was fetched, so
it has written all there was just when every block starts where the window does. -/
theorem flush_takes
    (h : (shard, .flush part d) ∈ (dataWork t session .persist r).flatMap ShardWork.actions)
    (ok : (Flush.write disk (flushTarget r) nth ⟨shard, d, part⟩).outcome = .ok ()) :
    let flush : Flush := ⟨shard, d, part⟩
    let target := flushTarget r
    let written := DiskHistory.taken (flush.write disk target nth).entries
    (flush.blocks target).Nodup ∧
      written.Perm ((flush.blocks target).filter (·.1.start ∈ flush.starts target)) ∧
      (written.Perm (flush.blocks target) ↔
        ∀ b ∈ flush.blocks target, b.1.start ∈ flush.starts target) ∧
      ∃ n, ∃ v ∈ slicesFor r shard, part = v.part ∧
        session.blocks n (dataFetch t r shard v.window) = .ok d ∧
        (Fits r → flush.starts target = [v.window.start] ∧
          (written.Perm (flush.blocks target) ↔ d.StartAt v.window.start)) := by
  intro flush target written
  have size : 0 < target.blockSize := r.policy.blockSize_pos
  have all := Flush.taken_all size ok
  obtain ⟨n, v, hv, rfl, fetched⟩ := exists_fetched h
  refine ⟨Flush.blocks_nodup target flush, Flush.taken_write size ok, all, n, v, hv, rfl, fetched,
    fun fits => ?_⟩
  have starts : flush.starts target = [v.window.start] :=
    congrArg (fun windows => windows.entries.map (·.start)) (windows_part fits hv)
  refine ⟨starts, all.trans ?_⟩
  rw [starts]
  simp only [List.mem_singleton]
  exact (Flush.startAt_iff : flush.data.StartAt v.window.start ↔ _).symm

/-- Has a block where every window starts, and one five later. -/
def straying : Session where
  blocks _ f := .ok ((ShardData.empty.addBlock [1] .empty f.window.start ⟨[], 0⟩).addBlock [1] .empty
    (f.window.start + 5) ⟨[], 1⟩)
  metadata _ _ := .ok []

def obliging : Disk := ⟨fun _ _ => .ok (), .ok ()⟩

theorem flush_takes_first :
    let policy : Policy := ⟨{ blockSize := 10 }, by decide, by decide⟩
    let options : RunOptions := ⟨⟨true, .flush⟩, .ofOrigin [] 0⟩
    let request : Request :=
      ⟨[7], policy, [0], none, ⟨Coverage.empty.add 0 ⟨3, 10⟩, options⟩, ⟨.empty, options⟩⟩
    let tuning : Tuning := ⟨1, 1, 1, 1, .majority, .lru⟩
    let data := (ShardData.empty.addBlock [1] .empty 0 ⟨[], 0⟩).addBlock [1] .empty 5 ⟨[], 1⟩
    let flush : Flush := ⟨0, data, ⟨3, 10⟩⟩
    let written := DiskHistory.taken (flush.write obliging (flushTarget request) 0).entries
    (0, .flush ⟨3, 10⟩ data) ∈ (dataWork tuning straying .persist request).flatMap
        ShardWork.actions ∧
      (flush.write obliging (flushTarget request) 0).outcome = .ok () ∧
      written.Perm [(⟨[7], 0, 0, 0, .flush, true⟩, [1], .empty, ⟨[], 0⟩)] := by
  intro policy options request tuning data flush written
  have handed : (0, .flush ⟨3, 10⟩ data) ∈
      (dataWork tuning straying .persist request).flatMap ShardWork.actions := by decide
  have ok : (flush.write obliging (flushTarget request) 0).outcome = .ok () := by decide
  obtain ⟨_, taken, _⟩ := flush_takes handed ok
  exact ⟨handed, ok, taken⟩

/-- A block that starts within the window that was fetched, and not where the window does, is left
behind: the flush comes to its end without an error, and so does the read, which misses nothing. -/
theorem flush_leaves_block :
    let policy : Policy := ⟨{ blockSize := 10 }, by decide, by decide⟩
    let options : RunOptions := ⟨⟨true, .flush⟩, .ofOrigin [] 0⟩
    let request : Request :=
      ⟨[7], policy, [0], none, ⟨Coverage.empty.add 0 ⟨0, 10⟩, options⟩, ⟨.empty, options⟩⟩
    let tuning : Tuning := ⟨1, 1, 1, 1, .majority, .lru⟩
    let cluster : Cluster :=
      ⟨fun _ => .ok straying, some fun _ => .ok obliging, some fun _ => .ok ()⟩
    let data := (ShardData.empty.addBlock [1] .empty 0 ⟨[], 0⟩).addBlock [1] .empty 5 ⟨[], 1⟩
    let flush : Flush := ⟨0, data, ⟨0, 10⟩⟩
    let target := flushTarget request
    straying.blocks 0 (dataFetch tuning request 0 ⟨0, 10⟩) = .ok data ∧
      (∀ b ∈ flush.blocks target, b.1.start ∈ Interval.mk 0 10) ∧
      (0, .flush ⟨0, 10⟩ data) ∈ (dataWork tuning straying .persist request).flatMap
        ShardWork.actions ∧
      obliging.Willing ∧ (flush.write obliging target 0).outcome = .ok () ∧
      ¬ (DiskHistory.taken (flush.write obliging target 0).entries).Perm (flush.blocks target) ∧
      (readData tuning cluster 0 request).outcome = .ok .empty ∧
      ¬ (DiskHistory.taken (diskHistory (readData tuning cluster 0 request).entries)).Perm
        (flush.blocks target) := by
  intro policy options request tuning cluster data flush target
  refine ⟨by decide, by decide, by decide, ⟨fun _ _ => rfl, rfl⟩, by decide, by decide,
    by decide +kernel, by decide +kernel⟩

end Peers

end Backfill

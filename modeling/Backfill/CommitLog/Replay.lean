import Backfill.CommitLog.Snapshot
import Backfill.Source

/-!
The state of one namespace while the commit log is replayed. Points are gathered by shard, series
and block in the order in which they come, and become blocks at the end.
-/

namespace Backfill

/-- One write. The series is known by its name within the shard. -/
structure LogEntry where
  namespaceId : NamespaceId
  shard : Shard
  id : SeriesId
  tags : Tags
  point : Point
  deriving DecidableEq, Repr

structure Gathered where
  tags : Tags
  blocks : SortedMap Instant (List Point)
  deriving DecidableEq

/-- All that was gathered for one block of one series. -/
structure Bucket where
  shard : Shard
  id : SeriesId
  tags : Tags
  start : Instant
  points : List Point
  deriving DecidableEq, Repr

structure Replay where
  request : Request
  /-- The volumes that blocks were restored from. -/
  snapshots : SortedMap Shard (SortedMap Instant SnapshotInfo)
  series : SortedMap Shard (SortedMap SeriesId Gathered)
  index : Index
  missingData : Coverage
  missingIndex : Coverage

namespace Replay

def ofRequest (r : Request) : Replay := ⟨r, .empty, .empty, .empty, .empty, .empty⟩

def dataRanges (r : Replay) : Coverage := r.request.data.ranges

def indexRanges (r : Replay) : Coverage := r.request.indexRanges

def blockSize (r : Replay) : Duration := r.request.policy.blockSize

def indexBlockSize (r : Replay) : Duration := r.request.policy.indexBlockSize

/-- What is asked of the shard is missing. -/
def missShard (r : Replay) (shard : Shard) : Replay :=
  { r with missingData := r.missingData.addSet shard (r.dataRanges.get shard) }

/-- What is asked of one block is missing. -/
def missBlock (r : Replay) (shard : Shard) (block : Interval) : Replay :=
  { r with missingData := r.missingData.addSet shard ((r.dataRanges.get shard).clip block) }

/-- The tags only count when the series is new. -/
def gather (r : Replay) (b : Bucket) : Replay :=
  { r with
    series := r.series.update b.shard .empty fun all =>
      all.update b.id ⟨b.tags, .empty⟩ fun g =>
        { g with blocks := g.blocks.update b.start [] (· ++ b.points) } }

def snapshotAt (r : Replay) (shard : Shard) (start : Instant) : Option SnapshotInfo :=
  (r.snapshots.get? shard).bind (·.get? start)

/-- The points of every series of a volume, if all of them can be read. -/
def readVolume (info : SnapshotInfo) (volume : List SnapshotSeries) :
    Except Segment.Corruption (List Bucket) :=
  volume.mapM fun s => (s.block.points info.start).map (⟨info.shard, s.id, s.tags, info.start, ·⟩)

/-- Takes only points that are asked for. One series that cannot be read spoils the volume. -/
def restore (r : Replay) (info : SnapshotInfo) (volume : List SnapshotSeries) :
    Except Fault Replay :=
  (Interval.ofStart info.start r.blockSize).map fun block =>
    let asked := r.dataRanges.get info.shard
    if asked.isEmpty then r
    else match readVolume info volume with
      | .error _ => r.missBlock info.shard block
      | .ok buckets =>
        let wanted := buckets.map fun b => { b with points := b.points.filter (·.time ∈ asked) }
        let r := (wanted.filter (!·.points.isEmpty)).foldl gather r
        { r with
          snapshots := r.snapshots.update info.shard .empty (·.insert info.start info) }

/-- The block of the index is there even when the series cannot be indexed. -/
def applyIndex (r : Replay) (e : LogEntry) : Except Fault Replay := do
  let start ← Instant.windowStart e.point.time r.indexBlockSize
  let index := r.index.touch start
  if index.holds start e.id then return { r with index }
  match Document.validate e.id e.tags with
  | .ok () => return { r with index := index.insert start e.id e.tags }
  | .error _ =>
    let block ← Interval.ofStart start r.indexBlockSize
    let lost := (r.indexRanges.get e.shard).clip block
    return { r with index, missingIndex := r.missingIndex.addSet e.shard lost }

/-- Values that the restored snapshot holds already are passed over. -/
def applyData (r : Replay) (e : LogEntry) : Except Fault (Replay × EntryFate) := do
  let start ← Instant.windowStart e.point.time r.blockSize
  let held := (r.snapshotAt e.shard start).any (e.point.time ≤ ·.time)
  if held then return (r, .snapshotted)
  return (r.gather ⟨e.shard, e.id, e.tags, start, [e.point]⟩, .read)

/-- Index first, then data, each as far as the entry is asked for there. -/
def apply (r : Replay) (e : LogEntry) : Except Fault (Replay × EntryFate) := do
  let indexed := decide (e.point.time ∈ r.indexRanges.get e.shard)
  let r ← if indexed then r.applyIndex e else pure r
  if e.point.time ∈ r.dataRanges.get e.shard then r.applyData e
  else return (r, if indexed then .read else .outOfRange)

def buckets (r : Replay) : List Bucket :=
  r.series.entries.flatMap fun (shard, all) =>
    all.entries.flatMap fun (id, g) =>
      g.blocks.entries.map fun (start, points) => ⟨shard, id, g.tags, start, points⟩

/-- A bucket becomes a block, or what is asked of its block is missing. -/
def closeBucket (r : Replay) (d : RecoveredData) (b : Bucket) : Except Fault RecoveredData :=
  match Block.encode b.points with
  | .ok block =>
    .ok { d with
      shards := d.shards.update b.shard .empty (·.addBlock b.id b.tags b.start block) }
  | .error _ =>
    (Interval.ofStart b.start r.blockSize).map fun block =>
      { d with missing := d.missing.addSet b.shard ((r.dataRanges.get b.shard).clip block) }

def finishData (r : Replay) (missAll : Bool) : Except Fault RecoveredData := do
  let d ← r.buckets.foldlM r.closeBucket ⟨.empty, r.missingData⟩
  return if missAll then d.addAllMissing r.dataRanges else d

/-- The marks for what is indexed of one shard, window by window. The windows are put in from the
last one on, so that each comes in front of the others. -/
def shardMarks (size : Duration) (shard : Shard) (done : TimeSet) : Except Fault Index :=
  let slices := done.slices size
  slices.outcome.map fun _ =>
    slices.entries.foldr
      (fun s i => i.mark s.window.start (Coverage.empty.set shard (.ofInterval s.part))) .empty

def markShard (size : Duration) (index : Index) (e : Shard × TimeSet) : Except Fault Index :=
  (shardMarks size e.1 e.2).map index.merge

def finishIndex (r : Replay) (missAll : Bool) : Except Fault RecoveredIndex := do
  let missing := if missAll then r.missingIndex.union r.indexRanges else r.missingIndex
  let done := r.indexRanges.fulfilled missing
  let index ← done.entries.foldlM (markShard r.indexBlockSize) r.index
  return ⟨index, missing⟩

/-- With `missAll` all that was asked for is missing, though what was read is kept. -/
def finish (r : Replay) (missAll : Bool) : Except Fault (RecoveredData × RecoveredIndex) := do
  return (← r.finishData missAll, ← r.finishIndex missAll)

end Replay

end Backfill

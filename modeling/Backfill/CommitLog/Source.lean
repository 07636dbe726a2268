import Backfill.CommitLog.Replay

/-!
The commit log as a source. It is read once for all namespaces. Where a run restores snapshots,
each block starts from its newest complete volume, and only later writes come on top.
-/

namespace Backfill.CommitLog

/-- The files of the node. -/
structure Files where
  /-- The entries of the log in order. The first error among them ends it. -/
  entries : Except Error (List (Except Error LogEntry))
  list : NamespaceId → Shard → Except Error (List SnapshotInfo)
  read : SnapshotInfo → Except Error (List SnapshotSeries)

structure Options where
  files : Files
  /-- All that is asked for is missing when the log breaks off. -/
  missAllOnCorruption : Bool

abbrev Replays := SortedMap NamespaceId Replay

/-- Nothing is asked for. -/
def isIdle (r : Request) : Bool := r.data.ranges.isEmpty && r.indexRanges.isEmpty

/-- Of two requests for one namespace the later one is replayed. -/
def begin (requests : List Request) : Replays :=
  (requests.filter (!isIdle ·)).foldl (fun m r => m.insert r.id (.ofRequest r)) .empty

def restoreVolume (files : Files) (size : Duration) (shard : Shard) (replay : Replay)
    (e : Instant × SnapshotInfo) : Run Replay := do
  Trail.note (.snapshotRead e.2)
  match files.read e.2 with
  | .ok volume => Run.ofFaulty (replay.restore e.2 volume)
  | .error _ => Run.ofFaulty ((Interval.ofStart e.1 size).map (replay.missBlock shard))

def restoreShard (files : Files) (r : Request) (replay : Replay) (e : Shard × TimeSet) :
    Run Replay := do
  Trail.note (.snapshotsListed r.id e.1)
  match files.list r.id e.1 with
  | .error _ => return replay.missShard e.1
  | .ok infos =>
    let chosen ← Run.ofFaulty (SnapshotInfo.select e.2 r.policy.blockSize infos)
    Trail.foldEach (restoreVolume files r.policy.blockSize e.1) replay chosen.entries

def restoreRequest (files : Files) (replays : Replays) (r : Request) : Run Replays :=
  match r.data.options.persistence.kind, replays.get? r.id with
  | .snapshot, some replay => do
    let replay ← Trail.foldEach (restoreShard files r) replay replay.dataRanges.entries
    return replays.insert r.id replay
  | _, _ => return replays

def applyEntry (replays : Replays) (e : LogEntry) : Run Replays :=
  match replays.get? e.namespaceId with
  | none => do
    Trail.note (.counted (.logEntries .outOfRange) 1)
    return replays
  | some replay => do
    let (replay, fate) ← Run.ofFaulty (replay.apply e)
    Trail.note (.counted (.logEntries fate) 1)
    return replays.insert e.namespaceId replay

/-- The entries before the first error, and whether there is one. -/
def readable : List (Except Error LogEntry) → List LogEntry × Bool
  | [] => ([], false)
  | .error _ :: _ => ([], true)
  | .ok e :: rest => (e :: (readable rest).1, (readable rest).2)

def finishRequest (missAll : Bool) (s : Replays × Recoveries) (r : Request) :
    Except Fault (Replays × Recoveries) :=
  match s.1.get? r.id with
  | none => .ok s
  | some replay => do
    let (data, index) ← replay.finish missAll
    return (s.1.erase r.id, s.2.insert r.id { r.recovery with data, index })

/-- All that a request asks for is missing. -/
def unread (r : Request) : Recovery :=
  { r.recovery with data := ⟨.empty, r.data.ranges⟩, index := ⟨.empty, r.indexRanges⟩ }

def phasesDone (found : Recoveries) (r : Request) : List Event :=
  match found.get? r.id with
  | none => []
  | some f =>
    (if r.data.ranges.isEmpty then [] else phaseDone .commitLog .data f.data.missing) ++
      (if r.indexRanges.isEmpty then [] else phaseDone .commitLog .index f.index.missing)

def readAll (o : Options) (idle : Recoveries) (replays : Replays) (requests : List Request) :
    Run Recoveries := do
  let replays ← Trail.foldEach (restoreRequest o.files) replays requests
  Trail.note .logOpened
  match o.files.entries with
  | .error _ =>
    return (requests.filter (replays.contains ·.id)).foldl (fun m r => m.insert r.id (unread r)) idle
  | .ok items =>
    let (entries, corrupt) := readable items
    let replays ← Trail.foldEach applyEntry replays entries
    let missAll := corrupt && o.missAllOnCorruption
    let (_, found) ← Run.ofFaulty (requests.foldlM (finishRequest missAll) (replays, idle))
    return found

def read (o : Options) (requests : List Request) : Run Recoveries :=
  let idle := (requests.filter isIdle).foldl (fun m r => m.insert r.id r.recovery) .empty
  let live := requests.filter (!isIdle ·)
  if live.isEmpty then return idle
  else do
    let found ← readAll o idle (begin requests) requests
    Trail.notes (live.flatMap (phasesDone found))
    return found

/-- The log is taken to have an answer for everything. -/
def source (o : Options) : Source where
  name := "commitlog"
  availableData _ _ ranges _ := .ok ranges
  availableIndex _ _ ranges _ := .ok ranges
  read := read o

end Backfill.CommitLog

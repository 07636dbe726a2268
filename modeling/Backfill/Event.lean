import Backfill.Fileset
import Backfill.Interval

/-!
What a read does that others can see: its calls to the outside, and its counters.
-/

namespace Backfill

inductive Provider where
  | peers
  | commitLog
  deriving DecidableEq, Repr

def Provider.name : Provider → String
  | peers => "peers"
  | commitLog => "commitlog"

inductive Phase where
  | data
  | index
  deriving DecidableEq, Repr

def Phase.name : Phase → String
  | data => "data"
  | index => "index"

inductive FetchKind where
  | blocks
  | metadata
  deriving DecidableEq, Repr

def FetchKind.name : FetchKind → String
  | blocks => "blocks"
  | metadata => "metadata"

/-- What becomes of an entry of the commit log. -/
inductive EntryFate where
  | read
  | outOfRange
  /-- The snapshot of the block holds the value already. -/
  | snapshotted
  deriving DecidableEq, Repr

def EntryFate.name : EntryFate → String
  | read => "read"
  | outOfRange => "skipped_out_of_range"
  | snapshotted => "skipped_snapshotted"

inductive Metric where
  | fetches (kind : FetchKind) (ok : Bool)
  | flushes (ok : Bool)
  | logEntries (fate : EntryFate)
  /-- Phases that came to their end. -/
  | reads (provider : Provider) (phase : Phase)
  /-- Intervals missing at the end of a phase. -/
  | missing (provider : Provider) (phase : Phase)
  deriving DecidableEq, Repr

namespace Metric

def metrics : List Metric :=
  [fetches .blocks true, fetches .blocks false, fetches .metadata true, fetches .metadata false,
    flushes true, flushes false, logEntries .read, logEntries .outOfRange, logEntries .snapshotted,
    reads .peers .data, reads .peers .index, reads .commitLog .data, reads .commitLog .index,
    missing .peers .data, missing .peers .index, missing .commitLog .data,
    missing .commitLog .index]

def outcome (ok : Bool) : String := if ok then "ok" else "error"

/-- The counter and its labels. -/
def name : Metric → List String
  | fetches kind ok => ["peer_fetch", kind.name, outcome ok]
  | flushes ok => ["persist_flush", outcome ok]
  | logEntries fate => ["commitlog_entries", fate.name]
  | reads provider phase => ["reads", provider.name, phase.name]
  | missing provider phase => ["unfulfilled", provider.name, phase.name]

end Metric

structure Fetch where
  kind : FetchKind
  namespaceId : NamespaceId
  shard : Shard
  window : Interval
  batchSize : Nat
  deriving DecidableEq, Repr

/-- One volume of a snapshot of a block on disk. -/
structure SnapshotInfo where
  namespaceId : NamespaceId
  shard : Shard
  start : Instant
  volume : Nat
  /-- Writes up to this instant are in the snapshot. -/
  time : Instant
  /-- The volume was written to its end. -/
  checkpointed : Bool
  deriving DecidableEq, Repr

inductive Event where
  | sessionOpened
  | fetched (f : Fetch)
  | retrieverAsked (id : NamespaceId)
  | flushStarted
  | disk (call : DiskCall) (reply : Reply Unit)
  | flushDone
  | checkedOut (accumulator : Nat) (shard : Shard) (id : SeriesId) (tags : Tags)
      (reply : Reply Unit)
  | loaded (accumulator : Nat) (shard : Shard) (id : SeriesId) (start : Instant) (block : Block)
      (reply : Reply Unit)
  | logOpened
  | snapshotsListed (id : NamespaceId) (shard : Shard)
  | snapshotRead (info : SnapshotInfo)
  | counted (m : Metric) (n : Nat)
  deriving DecidableEq, Repr

namespace Event

def amount (m : Metric) : Event → Nat
  | counted m' n => if m' = m then n else 0
  | _ => 0

/-- How much a counter grew. -/
def total (m : Metric) : List Event → Nat
  | [] => 0
  | e :: r => e.amount m + total m r

end Event

end Backfill

import Backfill.Peers.Flush
import Backfill.Source

/-!
The peers as the source sees them, and its options.
-/

namespace Backfill.Peers

/-- What a peer says of one of its blocks. -/
structure BlockMetadata where
  id : SeriesId
  tags : Tags
  start : Instant
  deriving DecidableEq, Repr

/-- Answers each fetch, which is also told how many fetches its worker has made before. -/
structure Session where
  blocks : (nth : Nat) → Fetch → Reply ShardData
  metadata : (nth : Nat) → Fetch → Reply (List BlockMetadata)

/-- How series data is kept in memory once the node serves reads. -/
inductive CachePolicy where
  | all
  | recentlyRead
  | lru
  | none
  deriving DecidableEq, Repr

namespace CachePolicy

instance : Inhabited CachePolicy := ⟨recentlyRead⟩

def policies : List CachePolicy := [all, recentlyRead, lru, none]

def name : CachePolicy → String
  | all => "all"
  | recentlyRead => "recently_read"
  | lru => "lru"
  | none => "none"

/-- Blocks that are not in memory can still be found on disk. -/
def readsFromDisk : CachePolicy → Bool
  | recentlyRead | lru => true
  | all | none => false

end CachePolicy

structure Tuning where
  /-- Workers at once when blocks stay in memory. -/
  workers : Nat
  /-- Workers at once when blocks are written to disk. -/
  persistWorkers : Nat
  queueCapacity : Nat
  batchSize : Nat
  level : Consistency
  cachePolicy : CachePolicy
  deriving DecidableEq, Repr

namespace Tuning

def validate (t : Tuning) : Except Error Unit :=
  if t.workers = 0 then .error (.validation "default_shard_concurrency must be > 0")
  else if t.persistWorkers = 0 then .error (.validation "shard_persistence_concurrency must be > 0")
  else if t.queueCapacity = 0 then .error (.validation "persistence_max_queue_size must be > 0")
  else if t.batchSize = 0 then .error (.validation "fetch_blocks_metadata_batch_size must be > 0")
  else .ok ()

end Tuning

/-- Sessions and flushes are numbered by the sessions opened before, over one read. -/
structure Cluster where
  openSession : (nth : Nat) → Except Error Session
  /-- Where blocks are written to. -/
  startFlush : Option ((nth : Nat) → Except Error Disk)
  /-- Whether the readers of a namespace can be told of blocks on disk. -/
  retriever : Option (NamespaceId → Except Error Unit)

end Backfill.Peers

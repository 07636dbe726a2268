import Backfill.Index
import Backfill.Policy
import Backfill.Series

/-!
What was recovered of a namespace, and what of the request is still missing. Two recoveries of the
same namespace merge.
-/

namespace Backfill

structure RecoveredData where
  shards : SortedMap Shard ShardData
  missing : Coverage
  deriving DecidableEq

namespace RecoveredData

def empty : RecoveredData := ⟨.empty, .empty⟩

/-- Shards without series are not held. -/
def addShard (r : RecoveredData) (shard : Shard) (d : ShardData) : RecoveredData :=
  if d.isEmpty then r else { r with shards := r.shards.update shard .empty (·.merge d) }

def addMissing (r : RecoveredData) (shard : Shard) (part : Interval) : RecoveredData :=
  { r with missing := r.missing.add shard part }

def addAllMissing (r : RecoveredData) (c : Coverage) : RecoveredData :=
  { r with missing := r.missing.union c }

def merge (a b : RecoveredData) : RecoveredData :=
  (b.shards.entries.foldl (fun r e => r.addShard e.1 e.2) a).addAllMissing b.missing

def numSeries (r : RecoveredData) : Nat := r.shards.total ShardData.numSeries

end RecoveredData

structure RecoveredIndex where
  index : Index
  missing : Coverage
  deriving DecidableEq

namespace RecoveredIndex

def empty : RecoveredIndex := ⟨.empty, .empty⟩

def addMissing (r : RecoveredIndex) (shard : Shard) (part : Interval) : RecoveredIndex :=
  { r with missing := r.missing.add shard part }

def addAllMissing (r : RecoveredIndex) (c : Coverage) : RecoveredIndex :=
  { r with missing := r.missing.union c }

def merge (a b : RecoveredIndex) : RecoveredIndex :=
  ⟨a.index.merge b.index, a.missing.union b.missing⟩

end RecoveredIndex

structure Recovery where
  policy : Policy
  shards : List Shard
  data : RecoveredData
  index : RecoveredIndex
  deriving DecidableEq

namespace Recovery

def ofShards (policy : Policy) (shards : List Shard) : Recovery :=
  ⟨policy, shards, .empty, .empty⟩

/-- Shards that are not listed yet, in order. -/
def joinShards (a b : List Shard) : List Shard :=
  b.foldl (fun l s => if l.contains s then l else l ++ [s]) a

/-- The policy stays that of `a`. -/
def merge (a b : Recovery) : Recovery :=
  ⟨a.policy, joinShards a.shards b.shards, a.data.merge b.data, a.index.merge b.index⟩

end Recovery

/-- The recovery of each namespace. -/
structure Recoveries where
  byId : SortedMap NamespaceId Recovery
  deriving DecidableEq

namespace Recoveries

def empty : Recoveries := ⟨.empty⟩

instance : Inhabited Recoveries := ⟨empty⟩

def get? (r : Recoveries) (id : NamespaceId) : Option Recovery := r.byId.get? id

/-- Merges with what is already held for the namespace. -/
def insert (r : Recoveries) (id : NamespaceId) (new : Recovery) : Recoveries :=
  ⟨r.byId.alter id fun o => some (o.elim new (·.merge new))⟩

def modify (r : Recoveries) (id : NamespaceId) (f : Recovery → Recovery) : Recoveries :=
  ⟨r.byId.alter id (·.map f)⟩

def merge (a b : Recoveries) : Recoveries := ⟨a.byId.unionWith Recovery.merge b.byId⟩

end Recoveries

end Backfill

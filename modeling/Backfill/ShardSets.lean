import Backfill.SortedMap
import Backfill.TimeSet

/-!
Sets of instants by shard, as they were put in. A shard can be held without instants, because it was
given none or because none are left; whatever is asked then leaves it out.
-/

namespace Backfill

structure ShardSets where
  sets : SortedMap Shard TimeSet

namespace ShardSets

def empty : ShardSets := ⟨.empty⟩

/-- The instants held for a shard. -/
def timesOf (c : ShardSets) (shard : Shard) : TimeSet := (c.sets.get? shard).getD .empty

/-- A shard together with an instant. -/
instance : Membership (Shard × Instant) ShardSets where
  mem c p := p.2 ∈ c.timesOf p.1

instance (p : Shard × Instant) (c : ShardSets) : Decidable (p ∈ c) :=
  inferInstanceAs (Decidable (p.2 ∈ c.timesOf p.1))

def isEmpty (c : ShardSets) : Bool := c.sets.values.all TimeSet.isEmpty

def get? (c : ShardSets) (shard : Shard) : Option TimeSet :=
  (c.sets.get? shard).filter (!·.isEmpty)

/-- The shards with instants, ascending. -/
def entries (c : ShardSets) : List (Shard × TimeSet) := c.sets.entries.filter (!·.2.isEmpty)

/-- What is held without instants does not tell two apart. -/
instance : BEq ShardSets where
  beq a b := a.entries == b.entries

def set (c : ShardSets) (shard : Shard) (s : TimeSet) : ShardSets := ⟨c.sets.insert shard s⟩

def add (c : ShardSets) (shard : Shard) (r : Interval) : ShardSets :=
  ⟨c.sets.update shard .empty (·.add r)⟩

def addSet (c : ShardSets) (shard : Shard) (s : TimeSet) : ShardSets :=
  ⟨c.sets.update shard .empty (·.union s)⟩

def ofShards (shards : List Shard) (r : Interval) : ShardSets := shards.foldl (·.add · r) empty

def union (a b : ShardSets) : ShardSets := b.entries.foldl (fun c e => c.addSet e.1 e.2) a

/-- A shard that is not held stays so. -/
def removeSet (c : ShardSets) (shard : Shard) (s : TimeSet) : ShardSets :=
  ⟨c.sets.alter shard fun o => o.map (·.diff s)⟩

/-- Without the shards that hold no instants. -/
def retained (c : ShardSets) : ShardSets := ⟨c.sets.filter fun _ s => !s.isEmpty⟩

def diff (a b : ShardSets) : ShardSets :=
  (b.entries.foldl (fun c e => c.removeSet e.1 e.2) a).retained

/-- Puts in a set of instants, if there is one. -/
def setSome (c : ShardSets) (shard : Shard) (s : Option TimeSet) : ShardSets :=
  s.elim c (c.set shard)

/-- The instants that `s` has in common with those of the shard. -/
def common? (b : ShardSets) (shard : Shard) (s : TimeSet) : Option TimeSet :=
  ((b.get? shard).map s.intersect).filter (!·.isEmpty)

def intersect (a b : ShardSets) : ShardSets :=
  a.entries.foldl (fun c e => c.setSome e.1 (b.common? e.1 e.2)) empty

def restrict (c : ShardSets) (shards : List Shard) : ShardSets :=
  shards.foldl (fun d shard => d.setSome shard (c.get? shard)) empty

/-- Nothing of `b` is missing from `a`. -/
def covers (a b : ShardSets) : Bool := (b.diff a).isEmpty

/-- The part of a request that was not reported missing. -/
def fulfilled (requested missing : ShardSets) : ShardSets := requested.diff missing

end ShardSets

end Backfill

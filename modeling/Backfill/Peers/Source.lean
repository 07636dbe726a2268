import Backfill.Peers.Index

/-!
The peers as a source: first the data of every namespace, then the index of those that have one.
-/

namespace Backfill.Peers

/-- Sessions opened so far, and what was recovered. -/
abbrev Progress := Nat × Recoveries

def readDataOf (t : Tuning) (c : Cluster) (p : Progress) (r : Request) : Run Progress := do
  let data ← readData t c p.1 r
  return (if r.data.ranges.isEmpty then p.1 else p.1 + 1, p.2.insert r.id { r.recovery with data })

/-- The index that was held for the namespace gives way. -/
def readIndexOf (t : Tuning) (c : Cluster) (p : Progress) (r : Request) : Run Progress := do
  let index ← readIndex t c p.1 r
  return (if r.index.ranges.isEmpty then p.1 else p.1 + 1, p.2.modify r.id ({ · with index }))

def read (t : Tuning) (c : Cluster) (requests : List Request) : Run Recoveries := do
  let p ← Trail.foldEach (readDataOf t c) (0, .empty) requests
  let p ← Trail.foldEach (readIndexOf t c) p (requests.filter (·.policy.indexed))
  return p.2

def available (t : Tuning) (ranges : Coverage) (o : RunOptions) : Except Error Coverage :=
  o.topology.available t.level ranges

def source (t : Tuning) (c : Cluster) : Source where
  name := "peers"
  availableData _ _ ranges o := available t ranges o
  availableIndex _ _ ranges o := available t ranges o
  read := read t c

/-- A source with options that cannot work is not made. -/
def source? (t : Tuning) (c : Cluster) : Except Error Source :=
  t.validate.map fun _ => source t c

end Backfill.Peers

import Backfill.Bytes.Text
import Backfill.Consistency
import Backfill.Coverage

/-!
Which host holds which shard in which state, and what of a request the other hosts can stream.
-/

namespace Backfill

inductive ReplicaState where
  /-- Still being filled. -/
  | initializing
  | available
  /-- Handed on to another host but still complete. -/
  | leaving
  /-- The host reported a state that is not one of these. -/
  | unknown
  deriving DecidableEq, Repr

/-- Whether the replica can be read in full. -/
def ReplicaState.serves : ReplicaState → Bool
  | available | leaving => true
  | initializing | unknown => false

structure Topology where
  /-- The host that is being filled. It does not count as a peer of its own. -/
  origin : HostId
  majority : Nat
  shards : SortedMap Shard (SortedMap HostId ReplicaState)
  deriving DecidableEq

namespace Topology

def ofOrigin (origin : HostId) (majority : Nat) : Topology := ⟨origin, majority, .empty⟩

def place (t : Topology) (shard : Shard) (host : HostId) (state : ReplicaState) : Topology :=
  { t with shards := t.shards.update shard .empty (·.insert host state) }

/-- The replicas of a shard on other hosts, for a shard that is placed at all. -/
def peers (t : Topology) (shard : Shard) : Option (List (HostId × ReplicaState)) :=
  (t.shards.get? shard).map fun hosts => hosts.entries.filter (·.1 ≠ t.origin)

/-- Enough of the peers can be read in full, and at least one. -/
def quorum (t : Topology) (level : Consistency) (peers : List (HostId × ReplicaState)) : Bool :=
  let serving := (peers.filter (·.2.serves)).length
  0 < serving && level.achieved t.majority peers.length serving

/-- A peer in a state that is not known leaves the question open. -/
def admits (t : Topology) (level : Consistency) (shard : Shard) : Except Error Bool :=
  match t.peers shard with
  | none => .ok false
  | some peers =>
    match peers.find? (·.2 = .unknown) with
    | some (host, _) =>
      .error (.topology shard s!"unknown shard state for host {Bytes.display host}")
    | none => .ok (t.quorum level peers)

/-- The shards that `admits` lets through, with all that is asked of them. -/
def admitted (t : Topology) (level : Consistency) :
    List (Shard × TimeSet) → Except Error (List (Shard × TimeSet))
  | [] => .ok []
  | e :: r => do
    let here ← t.admits level e.1
    let rest ← t.admitted level r
    return if here then e :: rest else rest

/-- What of a request can be streamed from the peers. -/
def available (t : Topology) (level : Consistency) (requested : Coverage) :
    Except Error Coverage :=
  (t.admitted level requested.entries).map fun l => l.foldl (fun c e => c.set e.1 e.2) .empty

end Topology

end Backfill

import Backfill.Event
import Backfill.Recovery
import Backfill.Topology
import Backfill.Trail

/-!
What is asked for, and what can provide it.
-/

namespace Backfill

/-- A read that leaves events behind, even where it ends without a result. -/
abbrev Run (α : Type) := Trail Event Failure α

namespace Run

def error {α : Type} (e : Error) : Run α := .fail (.error e)

/-- A fault takes the whole read down. -/
def ofFaulty {α : Type} (x : Except Fault α) : Run α := .lift (x.mapError .fault)

def ofExcept {α : Type} (x : Except Error α) : Run α := .lift (x.mapError .error)

end Run

/-- The series of the node itself, which blocks are loaded into. Each is checked out before. -/
structure Accumulator where
  /-- Tells this accumulator from others in the events of a read. -/
  label : Nat
  checkout : Shard → SeriesId → Tags → Reply Unit
  load : Shard → SeriesId → Instant → Block → Reply Unit

structure Persistence where
  enabled : Bool := false
  kind : FilesetKind := .flush
  deriving DecidableEq, Repr

structure RunOptions where
  persistence : Persistence
  topology : Topology

/-- What is asked for in one phase. -/
structure Ask where
  ranges : Coverage
  options : RunOptions

structure Request where
  id : NamespaceId
  policy : Policy
  shards : List Shard
  /-- Without one, blocks from peers are part of the result. -/
  accumulator : Option Accumulator
  data : Ask
  index : Ask

namespace Request

def recovery (r : Request) : Recovery := .ofShards r.policy r.shards

/-- Nothing is asked of an index that is not kept. -/
def indexRanges (r : Request) : Coverage := if r.policy.indexed then r.index.ranges else .empty

end Request

/-- Each instant that a source is asked to read is either recovered or missing in its result. -/
structure Source where
  name : String
  availableData : NamespaceId → Policy → Coverage → RunOptions → Except Error Coverage
  availableIndex : NamespaceId → Policy → Coverage → RunOptions → Except Error Coverage
  read : List Request → Run Recoveries

/-- The end of one phase of a read. -/
def phaseDone (provider : Provider) (phase : Phase) (missing : Coverage) : List Event :=
  .counted (.reads provider phase) 1 ::
    if missing.size = 0 then [] else [.counted (.missing provider phase) missing.size]

end Backfill

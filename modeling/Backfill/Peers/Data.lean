import Backfill.Peers.FlushQueue
import Backfill.Peers.Session

/-!
The data phase of a read from peers. Every shard has a worker of its own, which fetches window after
window and hands on what it gets; a worker that breaks off leaves the whole shard missing. What the
workers do to the shared result is a list of actions each, and the result follows from the order in
which the actions of all of them come.
-/

namespace Backfill.Peers

/-- What becomes of fetched blocks. -/
inductive Delivery where
  | keep
  | load (a : Accumulator)
  | persist

/-- One step of a worker. -/
inductive DataAction where
  | event (e : Event)
  | miss (part : Interval)
  | keep (d : ShardData)
  | flush (part : Interval) (d : ShardData)
  deriving DecidableEq

abbrev DataWork := Trail DataAction Fault Unit

namespace DataWork

def loadBlock (a : Accumulator) (shard : Shard) (part : Interval) (id : SeriesId)
    (b : Instant × Block) : DataWork :=
  let reply := a.load shard id b.1 b.2
  (Trail.note (.event (.loaded a.label shard id b.1 b.2 reply))).bind fun _ =>
    match reply with
    | .ok () => .pure ()
    | .error _ => .note (.miss part)
    | .crash => .fail .collaborator

/-- A series that cannot be checked out loses its blocks. -/
def loadSeries (a : Accumulator) (shard : Shard) (part : Interval) (e : SeriesId × Series) :
    DataWork :=
  let reply := a.checkout shard e.1 e.2.tags
  (Trail.note (.event (.checkedOut a.label shard e.1 e.2.tags reply))).bind fun _ =>
    match reply with
    | .ok () => Trail.each (loadBlock a shard part e.1) e.2.blocks.entries
    | .error _ => .note (.miss part)
    | .crash => .fail .collaborator

def deliver (how : Delivery) (shard : Shard) (part : Interval) (d : ShardData) : DataWork :=
  match how with
  | .keep => .note (.keep d)
  | .load a => Trail.each (loadSeries a shard part) d.series.entries
  | .persist => .note (.flush part d)

/-- Whether a fetch came back is counted; one that broke off is not. -/
def fetched (kind : FetchKind) (ok : Bool) : Event := .counted (.fetches kind ok) 1

/-- Fetches one window. The whole window is fetched; only the part asked for can be missing. -/
def slice (session : Session) (how : Delivery) (fetch : Interval → Fetch) (shard : Shard)
    (s : Nat × TimeSet.Slice) : DataWork :=
  let call := fetch s.2.window
  (Trail.note (.event (.fetched call))).bind fun _ =>
    match session.blocks s.1 call with
    | .ok d =>
      (Trail.note (.event (fetched .blocks true))).bind fun _ => deliver how shard s.2.part d
    | .error _ => .notes [.event (fetched .blocks false), .miss s.2.part]
    | .crash => .fail .collaborator

/-- All the windows of one shard, counted. -/
def shard (session : Session) (how : Delivery) (fetch : Interval → Fetch) (size : Duration)
    (shard : Shard) (asked : TimeSet) : DataWork :=
  (asked.foldSlices size (fun n s =>
    (slice session how fetch shard (n, s)).bind fun _ => .pure (n + 1)) 0).bind fun _ => .pure ()

end DataWork

/-- What the workers share. -/
structure DataState where
  data : RecoveredData
  queue : FlushQueue
  /-- How many calls the disk has answered. -/
  calls : Nat
  /-- The latest event comes first. -/
  log : List Event

namespace DataState

def events (s : DataState) : List Event := s.log.reverse

/-- The events come after those in the log. -/
def logged (events log : List Event) : List Event := events.reverse ++ log

def ofCapacity (capacity : Nat) : DataState := ⟨.empty, .ofCapacity capacity, 0, []⟩

def flushed (outcome : Except Failure Unit) : List Event :=
  match outcome with
  | .ok () => [.counted (.flushes true) 1]
  | .error (.error _) => [.counted (.flushes false) 1]
  | .error (.fault _) => []

/-- A flush is written at once, or is missing when there is nobody left to write it. -/
def flush (target : Disk × FlushTarget) (s : DataState) (f : Flush) : DataState :=
  let written := f.write target.1 target.2 s.calls
  match s.queue.pass f written.outcome with
  | some queue =>
    { s with
      queue
      calls := s.calls + written.entries.length
      log := logged (written.entries.map (fun e => .disk e.1 e.2) ++ flushed written.outcome) s.log }
  | none => { s with queue := s.queue.turnAway f, data := s.data.addMissing f.shard f.part }

/-- The effect of one action. Without a target there is no flush among the actions. -/
def act (target : Option (Disk × FlushTarget)) (s : DataState) (a : Shard × DataAction) :
    DataState :=
  match a.2, target with
  | .event e, _ => { s with log := e :: s.log }
  | .miss part, _ => { s with data := s.data.addMissing a.1 part }
  | .keep d, _ => { s with data := s.data.addShard a.1 d }
  | .flush part d, some t => s.flush t ⟨a.1, d, part⟩
  | .flush part _, none => { s with data := s.data.addMissing a.1 part }

def run (target : Option (Disk × FlushTarget)) (s : DataState) (l : List (Shard × DataAction)) :
    DataState :=
  l.foldl (act target) s

/-- Closes the queue and commits what was written. If that fails, everything asked for is
missing. -/
def finish (disk : Disk) (asked : Coverage) (s : DataState) : DataState :=
  let queue := s.queue.close
  let data := s.data.addAllMissing queue.missing
  { s with
    queue
    data := match disk.done with
      | .ok () => data
      | .error _ => data.addAllMissing asked
    log := logged (s.queue.ledger.map (fun _ => .counted (.flushes false) 1) ++ [.flushDone])
      s.log }

end DataState

/-- The work of one shard and what was asked of it. -/
structure ShardWork (ε : Type) where
  shard : Shard
  asked : TimeSet
  work : Trail ε Fault Unit

namespace ShardWork

variable {ε : Type}

def actions (w : ShardWork ε) : List (Shard × ε) := w.work.entries.map (w.shard, ·)

/-- The worker broke off. -/
def abandoned (w : ShardWork ε) : Bool :=
  match w.work.outcome with
  | .ok () => false
  | .error _ => true

/-- What is missing because workers broke off. -/
def lost (l : List (ShardWork ε)) : Coverage :=
  (l.filter abandoned).foldl (fun c w => c.addSet w.shard w.asked) .empty

end ShardWork

/-- Blocks are written to disk only as flushes, and only where reads can find them there. -/
def shouldPersist (t : Tuning) (r : Request) : Bool :=
  r.data.options.persistence.enabled && r.data.options.persistence.kind = .flush &&
    t.cachePolicy.readsFromDisk

def flushTarget (r : Request) : FlushTarget :=
  ⟨r.id, r.policy.blockSize, r.data.options.persistence.kind⟩

/-- Where the blocks of a request are written, if they are. -/
def openTarget (t : Tuning) (c : Cluster) (nth : Nat) (r : Request) :
    Run (Option (Disk × FlushTarget)) :=
  if shouldPersist t r then
    match c.startFlush, c.retriever with
    | some start, some retriever => do
      Trail.note (.retrieverAsked r.id)
      Run.ofExcept (retriever r.id)
      Trail.note .flushStarted
      let disk ← Run.ofExcept (start nth)
      return some (disk, flushTarget r)
    | _, _ => Run.error (.invalidState
        "persistence requested without a persist manager and block retriever manager")
  else return none

def delivery (r : Request) (target : Option (Disk × FlushTarget)) : Delivery :=
  match target, r.accumulator with
  | some _, _ => .persist
  | none, some a => .load a
  | none, none => .keep

def dataFetch (t : Tuning) (r : Request) (shard : Shard) (window : Interval) : Fetch :=
  ⟨.blocks, r.id, shard, window, t.batchSize⟩

def dataWork (t : Tuning) (session : Session) (how : Delivery) (r : Request) :
    List (ShardWork DataAction) :=
  r.data.ranges.entries.map fun (shard, asked) =>
    ⟨shard, asked, DataWork.shard session how (dataFetch t r shard) r.policy.blockSize shard asked⟩

/-- The state after the actions in the given order, closed up. -/
def dataOutcome (t : Tuning) (target : Option (Disk × FlushTarget)) (r : Request)
    (actions : List (Shard × DataAction)) : DataState :=
  let s := (DataState.ofCapacity t.queueCapacity).run target actions
  match target with
  | some (disk, _) => s.finish disk r.data.ranges
  | none => s

def readData (t : Tuning) (c : Cluster) (nth : Nat) (r : Request) : Run RecoveredData :=
  if r.data.ranges.isEmpty then return .empty
  else do
    Trail.note .sessionOpened
    let session ← Run.ofExcept (c.openSession nth)
    let target ← openTarget t c nth r
    let work := dataWork t session (delivery r target) r
    let s := dataOutcome t target r (work.flatMap ShardWork.actions)
    let data := s.data.addAllMissing (ShardWork.lost work)
    Trail.notes (s.events ++ phaseDone .peers .data data.missing)
    return data

end Backfill.Peers

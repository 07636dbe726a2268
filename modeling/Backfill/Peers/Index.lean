import Backfill.Peers.Data

/-!
The index phase of a read from peers. Workers fetch what the peers say of their blocks, window after
window; each window goes into the result as a whole.
-/

namespace Backfill.Peers

/-- What one window has to say about the index. -/
structure IndexWindow where
  start : Instant
  part : Interval
  /-- In the order of the entries, each with the index block that it goes into. -/
  documents : List (Instant × SeriesId × Tags)
  /-- Where entries were that cannot be indexed. -/
  lost : TimeSet
  deriving DecidableEq, Repr

inductive IndexAction where
  | event (e : Event)
  | miss (part : Interval)
  | absorb (w : IndexWindow)
  deriving DecidableEq

abbrev IndexWork := Trail IndexAction Fault Unit

namespace IndexWindow

/-- An entry that cannot be indexed takes with it what was asked of its data block. -/
def addEntry (p : Policy) (w : IndexWindow) (m : BlockMetadata) : Except Fault IndexWindow :=
  match Document.validate m.id m.tags with
  | .ok () =>
    (Instant.windowStart m.start p.indexBlockSize).map fun start =>
      { w with documents := w.documents ++ [(start, m.id, m.tags)] }
  | .error _ => do
    let block ← Interval.ofStart (← Instant.windowStart m.start p.blockSize) p.blockSize
    return { w with lost := (block.intersect w.part).elim w.lost w.lost.add }

def ofEntries (p : Policy) (s : TimeSet.Slice) (l : List BlockMetadata) :
    Except Fault IndexWindow :=
  l.foldlM (addEntry p) ⟨s.window.start, s.part, [], .empty⟩

def indexed (w : IndexWindow) : TimeSet := (TimeSet.ofInterval w.part).diff w.lost

/-- Of several documents of one series the first is kept. -/
def absorb (r : RecoveredIndex) (shard : Shard) (w : IndexWindow) : RecoveredIndex :=
  let index := w.documents.foldl (fun i d => i.insert d.1 d.2.1 d.2.2) r.index
  let index :=
    if w.indexed.isEmpty then index
    else index.mark w.start (Coverage.empty.addSet shard w.indexed)
  ⟨index, r.missing.addSet shard w.lost⟩

end IndexWindow

namespace IndexWork

def slice (session : Session) (p : Policy) (fetch : Interval → Fetch) (s : Nat × TimeSet.Slice) :
    IndexWork :=
  let call := fetch s.2.window
  (Trail.note (.event (.fetched call))).bind fun _ =>
    match session.metadata s.1 call with
    | .ok l =>
      (Trail.note (.event (DataWork.fetched .metadata true))).bind fun _ =>
        (Trail.lift (IndexWindow.ofEntries p s.2 l)).bind fun w => .note (.absorb w)
    | .error _ => .notes [.event (DataWork.fetched .metadata false), .miss s.2.part]
    | .crash => .fail .collaborator

def shard (session : Session) (p : Policy) (fetch : Interval → Fetch) (asked : TimeSet) :
    IndexWork :=
  (asked.foldSlices p.indexBlockSize (fun n s =>
    (slice session p fetch (n, s)).bind fun _ => .pure (n + 1)) 0).bind fun _ => .pure ()

end IndexWork

/-- What the workers share. -/
structure IndexState where
  index : RecoveredIndex
  /-- The latest event comes first. -/
  log : List Event

namespace IndexState

def events (s : IndexState) : List Event := s.log.reverse

def act (s : IndexState) (a : Shard × IndexAction) : IndexState :=
  match a.2 with
  | .event e => { s with log := e :: s.log }
  | .miss part => { s with index := s.index.addMissing a.1 part }
  | .absorb w => { s with index := w.absorb s.index a.1 }

def run (l : List (Shard × IndexAction)) : IndexState := l.foldl act ⟨.empty, []⟩

end IndexState

def indexFetch (t : Tuning) (r : Request) (shard : Shard) (window : Interval) : Fetch :=
  ⟨.metadata, r.id, shard, window, t.batchSize⟩

def indexWork (t : Tuning) (session : Session) (r : Request) : List (ShardWork IndexAction) :=
  r.index.ranges.entries.map fun (shard, asked) =>
    ⟨shard, asked, IndexWork.shard session r.policy (indexFetch t r shard) asked⟩

def readIndex (t : Tuning) (c : Cluster) (nth : Nat) (r : Request) : Run RecoveredIndex :=
  if r.index.ranges.isEmpty then return .empty
  else do
    Trail.note .sessionOpened
    let session ← Run.ofExcept (c.openSession nth)
    let work := indexWork t session r
    let s := IndexState.run (work.flatMap ShardWork.actions)
    let index := s.index.addAllMissing (ShardWork.lost work)
    Trail.notes (s.events ++ phaseDone .peers .index index.missing)
    return index

end Backfill.Peers

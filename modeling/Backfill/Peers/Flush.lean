import Backfill.Fileset
import Backfill.Interval
import Backfill.Trail

/-!
Writing what was fetched of one window to disk. The calls form brackets: a fileset is prepared, its
blocks are persisted, and it is closed, also after a failed persist.
-/

namespace Backfill

/-- Answers each call by its number. Registering a block has no error to report. -/
structure Disk where
  answer : (nth : Nat) → DiskCall → Reply Unit
  /-- Commits what was written, once every fileset is closed. -/
  done : Except Error Unit

/-- What was fetched of one window of a shard. -/
structure Flush where
  shard : Shard
  data : ShardData
  /-- The part of the request that is missing when the window does not reach the disk. -/
  part : Interval
  deriving DecidableEq

/-- Where and in which windows flushes are written. -/
structure FlushTarget where
  namespaceId : NamespaceId
  blockSize : Duration
  kind : FilesetKind
  deriving DecidableEq, Repr

namespace Flush

abbrev DiskTrail := Trail (DiskCall × Reply Unit) Failure Unit

def ask (disk : Disk) (nth : Nat) (call : DiskCall) : DiskTrail :=
  let reply := disk.answer nth call
  ⟨[(call, reply)],
    match reply with
    | .ok () => .ok ()
    | .error e => .error (.error e)
    | .crash => .error (.fault .collaborator)⟩

def register (disk : Disk) (nth : Nat) (call : DiskCall) : DiskTrail :=
  let reply := disk.answer nth call
  ⟨[(call, reply)],
    match reply with
    | .crash => .error (.fault .collaborator)
    | _ => .ok ()⟩

/-- Readers are pointed at a block as soon as it is persisted. -/
def persistBlock (disk : Disk) (f : Fileset) (nth : Nat) (b : SeriesId × Tags × Block) :
    DiskTrail :=
  (ask disk nth (.persist f b.1 b.2.1 b.2.2)).bind fun _ =>
    register disk (nth + 1) (.register f.shard b.1 f.start b.2.2.checksum)

def persistBlocks (disk : Disk) (f : Fileset) : (nth : Nat) → List (SeriesId × Tags × Block) →
    DiskTrail
  | _, [] => .pure ()
  | nth, b :: rest =>
    let here := persistBlock disk f nth b
    here.bind fun _ => persistBlocks disk f (nth + here.entries.length) rest

/-- Closes a fileset after its blocks. The error of a persist goes before that of the closing. -/
def closeAfter (disk : Disk) (f : Fileset) (nth : Nat) (body : DiskTrail) : DiskTrail :=
  match body.outcome with
  | .error (.fault _) => body
  | .ok () => body.bind fun _ => ask disk (nth + body.entries.length) (.close f)
  | .error (.error e) =>
    let closing := ask disk (nth + body.entries.length) (.close f)
    ⟨body.entries ++ closing.entries,
      match closing.outcome with
      | .error (.fault x) => .error (.fault x)
      | _ => .error (.error e)⟩

/-- One fileset with the blocks that start where it does. -/
def writeFileset (disk : Disk) (f : Fileset) (nth : Nat) (d : ShardData) : DiskTrail :=
  let blocks := d.series.entries.filterMap fun (id, s) => (s.blocks.get? f.start).map (id, s.tags, ·)
  (ask disk nth (.prepare f)).bind fun _ =>
    closeAfter disk f (nth + 1) (persistBlocks disk f (nth + 1) blocks)

def fileset (t : FlushTarget) (shard : Shard) (start : Instant) : Fileset :=
  ⟨t.namespaceId, shard, start, 0, t.kind, true⟩

def writeWindows (disk : Disk) (t : FlushTarget) (flush : Flush) : (nth : Nat) → List Interval →
    DiskTrail
  | _, [] => .pure ()
  | nth, w :: rest =>
    let here := writeFileset disk (fileset t flush.shard w.start) nth flush.data
    here.bind fun _ => writeWindows disk t flush (nth + here.entries.length) rest

/-- A fileset for every window that the part reaches into. -/
def write (disk : Disk) (t : FlushTarget) (nth : Nat) (flush : Flush) : DiskTrail :=
  let windows := flush.part.windows t.blockSize
  (writeWindows disk t flush nth windows.entries).bind fun _ =>
    .lift (windows.outcome.mapError .fault)

end Flush

end Backfill

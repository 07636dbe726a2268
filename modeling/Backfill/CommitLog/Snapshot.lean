import Backfill.Event
import Backfill.SortedMap
import Backfill.TimeSet

/-!
Which volume of the snapshots of a shard each block is restored from: of the complete ones that
meet the request, the one with the greatest volume number, then the latest, then the first listed.
-/

namespace Backfill

namespace SnapshotInfo

def newer (a b : SnapshotInfo) : Bool :=
  b.volume < a.volume || (a.volume = b.volume && b.time < a.time)

/-- What is chosen for each block once `info` has been looked at. -/
def consider (set : TimeSet) (size : Duration) (chosen : SortedMap Instant SnapshotInfo)
    (info : SnapshotInfo) : Except Fault (SortedMap Instant SnapshotInfo) :=
  if info.checkpointed then
    (Interval.ofStart info.start size).map fun window =>
      if set.overlaps window then
        chosen.alter info.start fun
          | none => some info
          | some held => some (if info.newer held then info else held)
      else chosen
  else .ok chosen

def select (set : TimeSet) (size : Duration) (infos : List SnapshotInfo) :
    Except Fault (SortedMap Instant SnapshotInfo) :=
  infos.foldlM (consider set size) .empty

end SnapshotInfo

/-- One series out of a volume. -/
structure SnapshotSeries where
  id : SeriesId
  tags : Tags
  block : Block
  deriving DecidableEq, Repr

end Backfill

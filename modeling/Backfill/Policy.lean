import Backfill.Error
import Backfill.Instant

/-!
The rules that the data of one namespace is kept under.
-/

namespace Backfill

structure PolicyOptions where
  blockSize : Duration := 2 * Duration.hour
  retention : Duration := 48 * Duration.hour
  indexed : Bool := false
  indexBlockSize : Duration := 2 * Duration.hour
  snapshots : Bool := false
  deriving DecidableEq, Repr

/-- The windows that data and index are kept in have a length. That of the index only matters where
there is an index. -/
structure Policy extends PolicyOptions where
  blockSize_pos : 0 < blockSize
  indexBlockSize_pos : indexed = true → 0 < indexBlockSize
  deriving DecidableEq, Repr

def PolicyOptions.validate (o : PolicyOptions) : Except Error Policy :=
  if hb : 0 < o.blockSize then
    if hi : o.indexed = true → 0 < o.indexBlockSize then .ok ⟨o, hb, hi⟩
    else .error (.validation "index.block_size must be > 0 when indexing is enabled")
  else .error (.validation "retention.block_size must be > 0")

end Backfill

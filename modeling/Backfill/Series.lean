import Backfill.Block
import Backfill.Tags

/-!
Blocks of one series by the start of their window, and the series of one shard by their name.
-/

namespace Backfill

structure Series where
  tags : Tags
  blocks : SortedMap Instant Block
  deriving DecidableEq

namespace Series

def ofTags (tags : Tags) : Series := ⟨tags, .empty⟩

/-- A block already there is replaced. -/
def addBlock (s : Series) (start : Instant) (b : Block) : Series :=
  { s with blocks := s.blocks.insert start b }

/-- The tags stay those of `a`; of two blocks with one start, the one of `b` is kept. -/
def merge (a b : Series) : Series :=
  { a with blocks := a.blocks.unionWith (fun _ new => new) b.blocks }

end Series

/-- The series of one shard. -/
structure ShardData where
  series : SortedMap SeriesId Series
  deriving DecidableEq

namespace ShardData

def empty : ShardData := ⟨.empty⟩

def isEmpty (d : ShardData) : Bool := d.series.isEmpty

def addSeries (d : ShardData) (id : SeriesId) (s : Series) : ShardData :=
  ⟨d.series.alter id fun o => some (o.elim s (·.merge s))⟩

/-- The tags only count when the series is new. -/
def addBlock (d : ShardData) (id : SeriesId) (tags : Tags) (start : Instant) (b : Block) :
    ShardData :=
  ⟨d.series.update id (.ofTags tags) (·.addBlock start b)⟩

def merge (a b : ShardData) : ShardData := ⟨a.series.unionWith Series.merge b.series⟩

/-- The blocks with the given start, by series. -/
def blocksAt (d : ShardData) (start : Instant) : List (SeriesId × Block) :=
  d.series.entries.filterMap fun (id, s) => (s.blocks.get? start).map (id, ·)

def removeBlocksAt (d : ShardData) (start : Instant) : ShardData :=
  ⟨d.series.filterMap fun _ s => some { s with blocks := s.blocks.erase start }⟩

def removeEmptySeries (d : ShardData) : ShardData :=
  ⟨d.series.filter fun _ s => !s.blocks.isEmpty⟩

def numSeries (d : ShardData) : Nat := d.series.size

def numBlocks (d : ShardData) : Nat := d.series.total (·.blocks.size)

end ShardData

end Backfill

import Backfill.Coverage
import Backfill.Tags

/-!
The index of a namespace: for every index window the documents in it and what is fully indexed. A
document is a series name with its tags. Nothing is ever taken out again.
-/

namespace Backfill

namespace Document

/-- A series can be indexed when its name and the names of its tags have bytes. -/
def validate (id : SeriesId) (tags : Tags) : Except Error Unit :=
  if id = [] then .error (.validation "series id must not be empty") else tags.validate

end Document

structure IndexBlock where
  documents : SortedMap SeriesId Tags
  fulfilled : Coverage
  deriving DecidableEq

namespace IndexBlock

def empty : IndexBlock := ⟨.empty, .empty⟩

/-- Documents already there stay as they are. -/
def insert (b : IndexBlock) (id : SeriesId) (tags : Tags) : IndexBlock :=
  { b with documents := b.documents.insertNew id tags }

def merge (a b : IndexBlock) : IndexBlock :=
  ⟨a.documents.unionWith (fun old _ => old) b.documents, a.fulfilled.union b.fulfilled⟩

end IndexBlock

structure Index where
  blocks : SortedMap Instant IndexBlock
  deriving DecidableEq

namespace Index

def empty : Index := ⟨.empty⟩

/-- The block is there afterwards, if only an empty one. -/
def touch (i : Index) (start : Instant) : Index := ⟨i.blocks.update start .empty id⟩

def insert (i : Index) (start : Instant) (id : SeriesId) (tags : Tags) : Index :=
  ⟨i.blocks.update start .empty (·.insert id tags)⟩

/-- `done` is fully indexed in the block. -/
def mark (i : Index) (start : Instant) (done : Coverage) : Index :=
  ⟨i.blocks.update start .empty fun b => { b with fulfilled := b.fulfilled.union done }⟩

def holds (i : Index) (start : Instant) (id : SeriesId) : Bool :=
  (i.blocks.get? start).any (·.documents.contains id)

def merge (a b : Index) : Index := ⟨a.blocks.unionWith IndexBlock.merge b.blocks⟩

def numDocuments (i : Index) : Nat := i.blocks.total (·.documents.size)

end Index

end Backfill

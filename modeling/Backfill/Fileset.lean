import Backfill.Error
import Backfill.Series

/-!
Sets of files on disk, each with the blocks of one shard in one window, and the calls that write
them.
-/

namespace Backfill

inductive FilesetKind where
  /-- The whole of a window, written once. -/
  | flush
  /-- What was in memory at some instant. -/
  | snapshot
  deriving DecidableEq, Repr, Inhabited

namespace FilesetKind

def name : FilesetKind → String
  | flush => "flush"
  | snapshot => "snapshot"

def code : FilesetKind → Nat
  | flush => 0
  | snapshot => 1

def unexpected (what : String) : Error := .invariantViolated s!"unexpected fileset type: {what}"

def ofName (s : String) : Except Error FilesetKind :=
  match [flush, snapshot].find? (·.name = s) with
  | some k => .ok k
  | none => .error (unexpected s)

def ofCode (n : Nat) : Except Error FilesetKind :=
  match [flush, snapshot].find? (·.code = n) with
  | some k => .ok k
  | none => .error (unexpected (toString n))

end FilesetKind

structure Fileset where
  namespaceId : NamespaceId
  shard : Shard
  start : Instant
  volume : Nat
  kind : FilesetKind
  /-- Files already there are at best part of the window and give way. -/
  replace : Bool
  deriving DecidableEq, Repr

/-- What is asked of the disk, and of the readers that are to find blocks there. -/
inductive DiskCall where
  | prepare (f : Fileset)
  | persist (f : Fileset) (id : SeriesId) (tags : Tags) (block : Block)
  | register (shard : Shard) (id : SeriesId) (start : Instant) (checksum : Checksum)
  | close (f : Fileset)
  deriving DecidableEq, Repr

end Backfill
